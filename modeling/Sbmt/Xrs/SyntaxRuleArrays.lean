import Sbmt.Xrs.SyntaxRuleReader

/-!
# Syntax rules: one rule, two readers

| here | there |
| --- | --- |
| `TreeNode.Same`, `RuleNode.Same` | `operator ==` (`sbmt/grammar/impl/syntax_rule.ipp:88-95`, `:124-129`) |
| `SyntaxRule.Same` | `operator ==` (`sbmt/grammar/syntax_rule.hpp:578-585`) |

Both constructors make the array of a tree, so the arrays are compared as trees (`tokens_eq_shape_iff`).  The trees
differ where a name is repeated, for the readers then disagree about the position, and where a variable is labelled
`TOP`, which is the toplevel tag for one reader wherever it stands, and for the other in inner nodes only.  And they
differ where the readers have not read the same: one cuts the right-hand side at white space only, so that two words
with nothing between them are one word for it.
-/

namespace Sbmt.Xrs

open Sbmt.Lib Sbmt.Lib.Phrase Sbmt.Forest List

variable {D T : Type}

section
variable (tf : TokenFactory T)

/-- The index counts for tags only. -/
def TreeNode.Same (n o : TreeNode T) : Prop :=
  n.t = o.t ∧ n.nextSibling = o.nextSibling ∧ n.firstChild = o.firstChild ∧ (tf.isNativeTag n.t = true → n.idx = o.idx)

def RuleNode.Same (n o : RuleNode T) : Prop := n.t = o.t ∧ (tf.isNativeTag n.t = true → n.lhsPos = o.lhsPos)

instance [DecidableEq T] (n o : TreeNode T) : Decidable (n.Same tf o) := inferInstanceAs (Decidable (_ ∧ _))

instance [DecidableEq T] (n o : RuleNode T) : Decidable (n.Same tf o) := inferInstanceAs (Decidable (_ ∧ _))

structure SyntaxRule.Same (r r' : SyntaxRule T) : Prop where
  lhs : Forall₂ (TreeNode.Same tf) r.lhsTree r'.lhsTree
  rhs : Forall₂ (RuleNode.Same tf) r.rhsRule r'.rhsRule

instance [DecidableEq T] (r r' : SyntaxRule T) : Decidable (r.Same tf r') :=
  decidable_of_iff
    (Forall₂ (TreeNode.Same tf) r.lhsTree r'.lhsTree ∧ Forall₂ (RuleNode.Same tf) r.rhsRule r'.rhsRule)
    ⟨fun h => ⟨h.1, h.2⟩, fun h => ⟨h.1, h.2⟩⟩

/-- Different labels have different tokens. -/
structure TokenFactory.Injective : Prop where
  tag : Function.Injective tf.tag
  nativeWord : Function.Injective tf.nativeWord
  foreignWord : Function.Injective tf.foreignWord

/-- Whatever was in memory, both constructors take their rule and build equal arrays. -/
def SameArrays (capacity : Nat) (rd : RuleData D) (rr : RuleReader.Rule) : Prop :=
  ∀ blank blank' unset, ∃ r r', SyntaxRule.init tf blank capacity rd = some r ∧
    SyntaxRule.initReader tf unset blank' capacity rr = some r' ∧ r.Same tf r'

end

/-! ## What both have read -/

mutual

/-- The variables of a tree from left to right, with their labels. -/
def vars : Tree → List (Nat × Text)
  | .var i l => [(i, l)]
  | .lex _ _ => []
  | .node _ k ks => vars k ++ varsOf ks

def varsOf : List Tree → List (Nat × Text)
  | [] => []
  | k :: ks => vars k ++ varsOf ks

end

mutual

/-- The left-hand side has the brackets, the labels and the words of the tree. -/
def Reads : Tree → RuleReader.Lhs → Prop
  | .var _ l, .var _ l' => l = l'
  | .lex l w, .lex l' w' => l = l' ∧ w = w'
  | .node l k ks, .node l' k' ks' => l = l' ∧ Reads k k' ∧ ReadsOf ks ks'
  | _, _ => False

def ReadsOf : List Tree → List RuleReader.Lhs → Prop
  | [], [] => True
  | k :: ks, k' :: ks' => Reads k k' ∧ ReadsOf ks ks'
  | _, _ => False

end

/-- The index that a variable's name has for the grammar. -/
def nameIndex (name : Text) : Option Nat := (xIndex name).bind fun i => if i.2 = [] then some i.1 else none

/-- The token is the item as it is written. -/
def WrittenAs : RhsNode → Text → Prop
  | .index i, token => nameIndex token = some i
  | .word w, token => w ≠ [] ∧ token = quoted w

open RuleReader (isQuoted rhsLexicalItem rhsTokens)

theorem isQuoted_quoted (w : Text) : isQuoted (quoted w) = true := by
  simp [isQuoted, quoted, getLast?_cons]

theorem isQuoted_of_nameIndex {name : Text} {i : Nat} (h : nameIndex name = some i) : isQuoted name = false := by
  cases name with
  | nil => cases h
  | cons c name =>
    have hx : 'x' = c := by
      by_contra hne
      simp [nameIndex, xIndex, lit, hne] at h
    rw [← hx]
    rfl

theorem rhsLexicalItem_quoted (w : Text) : rhsLexicalItem (quoted w) = w := by
  rw [rhsLexicalItem, if_pos (isQuoted_quoted w), quoted, tail_cons, dropLast_concat]

/-- A quoted token with something between the quote marks. -/
theorem eq_quoted {token : Text} (h : isQuoted token = true) (hne : rhsLexicalItem token ≠ []) :
    token = quoted (rhsLexicalItem token) := by
  rw [rhsLexicalItem, if_pos h] at hne ⊢
  rw [isQuoted, Bool.and_eq_true, decide_eq_true_eq, decide_eq_true_eq] at h
  obtain ⟨hfirst, hlast⟩ := h
  cases token with
  | nil => cases hfirst
  | cons c token =>
    rw [tail_cons] at hne ⊢
    rw [getLast?_cons] at hlast
    have hlast' : token.getLast? = some '"' := by
      cases hl : token.getLast? with
      | none => exact absurd (by rw [getLast?_eq_none_iff.1 hl]; rfl) hne
      | some d => rw [hl] at hlast; exact hlast
    rw [quoted, dropLast_append_getLast? _ hlast', Option.some.inj hfirst]

theorem forall₂_getElem? {α β : Type} {R : α → β → Prop} {l : List α} {l' : List β} (h : Forall₂ R l l') {p : Nat} {a : α}
    (hp : l[p]? = some a) : ∃ b, l'[p]? = some b ∧ R a b := by
  obtain ⟨hlt, rfl⟩ := List.getElem?_eq_some_iff.1 hp
  have hlt' := h.length_eq ▸ hlt
  exact ⟨_, getElem?_eq_getElem hlt', h.get hlt hlt'⟩

section
variable {tf : TokenFactory T} {capacity : Nat} {rd : RuleData D} {Tr : Tree} {blank blank' : RuleNode T} {unset : T}
  {r : SyntaxRule T} {src : RuleReader.Lhs} {toks : List Text} {rr : RuleReader.Rule}

/-! ## The trees compared -/

open RuleReader (pointers pointersOf numNodes readNode readNodes readNode_claims)

theorem tagToken_eq_tag (hinj : tf.Injective) {l l' : Text} : tagToken tf l = tf.tag l' ↔ l = l' ∧ l ≠ "TOP".toList := by
  unfold tagToken
  split
  case isTrue h =>
    constructor
    · intro heq
      have htype := congrArg tf.type heq
      rw [tf.type_toplevelTag, tf.type_tag] at htype
      cases htype
    · rintro ⟨-, hne⟩
      exact absurd h hne
  case isFalse h => exact ⟨fun heq => ⟨hinj.tag heq, h⟩, fun heq => congrArg tf.tag heq.1⟩

theorem isNativeTag_tagToken (l : Text) : tf.isNativeTag (tagToken tf l) = true := by
  unfold tagToken
  split
  · simp [TokenFactory.isNativeTag, tf.type_toplevelTag]
  · exact isNativeTag_tag l

theorem tagToken_injective (hinj : tf.Injective) {l l' : Text} : tagToken tf l = tagToken tf l' ↔ l = l' := by
  refine ⟨fun h => ?_, congrArg _⟩
  by_cases hl : l' = "TOP".toList
  · by_contra hne
    rw [hl] at hne
    have htag : tagToken tf l = tf.tag l := if_neg hne
    have htop := congrArg tf.type (h.symm.trans htag)
    rw [hl, tagToken, if_pos rfl, tf.type_toplevelTag, tf.type_tag] at htop
    cases htop
  · have htag : tagToken tf l' = tf.tag l' := if_neg hl
    exact ((tagToken_eq_tag hinj).1 (h.trans htag)).1

/-- A word is no root. -/
theorem tokens_ne_word (f : Nat → Nat) (k : Tree) (w : Text) : tokens tf f k ≠ .node (tf.nativeWord w, 0) [] := by
  intro h
  have hroot : ∃ l i ks, tokens tf f k = .node (tagToken tf l, i) ks := by
    cases k with
    | var i l => exact ⟨_, _, _, rfl⟩
    | lex l w => exact ⟨_, _, _, rfl⟩
    | node l k ks => exact ⟨_, _, _, rfl⟩
  obtain ⟨l, i, ks, hroot⟩ := hroot
  rw [hroot, Rose.node.injEq, Prod.mk.injEq] at h
  have htag : tf.isNativeTag (tagToken tf l) = true := isNativeTag_tagToken l
  rw [h.1.1, isNativeTag_nativeWord] at htag
  cases htag

theorem shape_ne_word {k : RuleReader.Lhs} {u u' : List Text} {r : RuleReader.RuleNode} (h : readNode k u = some (r, u')) (w : Text) :
    shape tf r ≠ .node (tf.nativeWord w, 0) [] := by
  cases k with
  | var name l =>
    obtain ⟨c, -, heq⟩ := Option.map_eq_some_iff.1 h
    obtain ⟨rfl, -⟩ := Prod.mk.inj heq
    intro heq
    rw [shape, Rose.node.injEq, Prod.mk.injEq] at heq
    have htag : tf.isNativeTag (tf.tag l) = true := isNativeTag_tag l
    rw [show tf.tag l = _ from heq.1.1, isNativeTag_nativeWord] at htag
    cases htag
  | lex l w =>
    obtain ⟨rfl, -⟩ := Prod.mk.inj (Option.some.inj h)
    simp [shape]
  | node l k ks =>
    simp only [readNode, Option.bind_eq_some_iff, Option.map_eq_some_iff] at h
    obtain ⟨c, -, d, -, heq⟩ := h
    obtain ⟨rfl, -⟩ := Prod.mk.inj heq
    simp [shape]

/-- The readers take the variables alike. -/
def Agree (f : Nat → Nat) (vs : List (Nat × Text)) (ps : List Nat) : Prop :=
  (∀ v ∈ vs, v.2 ≠ "TOP".toList) ∧ ps = vs.map fun v => f v.1

theorem agree_append {f : Nat → Nat} {vs ws : List (Nat × Text)} {ps qs : List Nat} (hlength : ps.length = vs.length) :
    Agree f (vs ++ ws) (ps ++ qs) ↔ Agree f vs ps ∧ Agree f ws qs := by
  unfold Agree
  rw [forall_mem_append, map_append]
  constructor
  · rintro ⟨⟨hvs, hws⟩, hmap⟩
    obtain ⟨hps, hqs⟩ := append_inj hmap (by rw [length_map, hlength])
    exact ⟨⟨hvs, hps⟩, hws, hqs⟩
  · rintro ⟨⟨hvs, rfl⟩, hws, rfl⟩
    exact ⟨⟨hvs, hws⟩, rfl⟩

mutual

theorem Reads.length_vars : ∀ {T : Tree} {src : RuleReader.Lhs}, Reads T src → (RuleReader.vars src).length = (vars T).length
  | .var _ _, .var _ _, _ => rfl
  | .lex _ _, .lex _ _, _ => rfl
  | .node _ k ks, .node _ k' ks', ⟨_, hk, hks⟩ => by
    rw [RuleReader.vars, vars, length_append, length_append, hk.length_vars, ReadsOf.length_vars hks]

theorem ReadsOf.length_vars : ∀ {ks : List Tree} {ks' : List RuleReader.Lhs}, ReadsOf ks ks' →
    (RuleReader.varsOf ks').length = (varsOf ks).length
  | [], [], _ => rfl
  | k :: ks, k' :: ks', ⟨hk, hks⟩ => by
    rw [RuleReader.varsOf, varsOf, length_append, length_append, hk.length_vars, ReadsOf.length_vars hks]

end

/-- What two parts say, the whole says. -/
theorem reads_and_agree_iff {a q : Prop} {f : Nat → Nat} {k : Tree} {k' : RuleReader.Lhs} {u u' : List Text}
    {r : RuleReader.RuleNode} (h : readNode k' u = some (r, u')) {ws : List (Nat × Text)} {qs : List Nat} :
    a ∧ (Reads k k' ∧ Agree f (vars k) (pointers r)) ∧ q ∧ Agree f ws qs ↔
      (a ∧ Reads k k' ∧ q) ∧ Agree f (vars k ++ ws) (pointers r ++ qs) := by
  have hlength : Reads k k' → (pointers r).length = (vars k).length := fun hk =>
    (readNode_claims k' h).named.length_eq.trans hk.length_vars
  constructor
  · rintro ⟨ha, ⟨hk, hagree⟩, hq, hagrees⟩
    exact ⟨⟨ha, hk, hq⟩, (agree_append (hlength hk)).2 ⟨hagree, hagrees⟩⟩
  · rintro ⟨⟨ha, hk, hq⟩, hagree⟩
    obtain ⟨hagree, hagrees⟩ := (agree_append (hlength hk)).1 hagree
    exact ⟨ha, ⟨hk, hagree⟩, hq, hagrees⟩

mutual

/-- The trees are one where both readers have read the same, and take the variables alike. -/
theorem tokens_eq_shape_iff (hinj : tf.Injective) {f : Nat → Nat} : ∀ (T : Tree) (src : RuleReader.Lhs) {u u' : List Text}
    {r : RuleReader.RuleNode}, readNode src u = some (r, u') →
      (tokens tf f T = shape tf r ↔ Reads T src ∧ Agree f (vars T) (pointers r))
  | T, .var name l', u, u', r, h => by
    obtain ⟨c, -, heq⟩ := Option.map_eq_some_iff.1 h
    obtain ⟨rfl, -⟩ := Prod.mk.inj heq
    cases T with
    | var i l =>
      rw [tokens, shape, Rose.node.injEq, Prod.mk.injEq, tokenFromXrsRulenode, tagToken_eq_tag hinj]
      simp [Agree, Reads, vars, pointers, eq_comm, and_assoc]
    | lex l w => simp [tokens, shape, Reads]
    | node l k ks => simp [tokens, shape, Reads]
  | T, .lex l' w', u, u', r, h => by
    obtain ⟨rfl, -⟩ := Prod.mk.inj (Option.some.inj h)
    have hroot : tokenFromXrsRulenode tf (.nonterminal l' (.lexical w') []) = tagToken tf l' := rfl
    cases T with
    | var i l => simp [tokens, shape, Reads]
    | lex l w =>
      rw [tokens, shape, Rose.node.injEq, Prod.mk.injEq, hroot, tagToken_injective hinj]
      simp [shape, shapes, tokenFromXrsRulenode, Agree, Reads, vars, pointers, pointersOf, hinj.nativeWord.eq_iff]
    | node l k ks =>
      simp only [tokens, shape, Reads, Rose.node.injEq, List.cons.injEq, false_and, iff_false, not_and]
      exact fun _ h => absurd h (tokens_ne_word f k w')
  | T, .node l' k' ks', u, u', r, h => by
    simp only [readNode, Option.bind_eq_some_iff, Option.map_eq_some_iff] at h
    obtain ⟨c, hc, d, hd, heq⟩ := h
    obtain ⟨rfl, -⟩ := Prod.mk.inj heq
    have hroot : tokenFromXrsRulenode tf (.nonterminal l' c.1 d.1) = tagToken tf l' := rfl
    cases T with
    | var i l => simp [tokens, shape, Reads]
    | lex l w =>
      have hne := (@shape_ne_word _ tf _ _ _ _ hc w).symm
      simp [tokens, shape, Reads, hne]
    | node l k ks =>
      rw [tokens, shape, Rose.node.injEq, Prod.mk.injEq, List.cons.injEq, hroot, tagToken_injective hinj,
        tokens_eq_shape_iff hinj k k' hc, tokensOf_eq_shapes_iff hinj ks ks' hd, and_iff_left rfl]
      exact reads_and_agree_iff hc

theorem tokensOf_eq_shapes_iff (hinj : tf.Injective) {f : Nat → Nat} : ∀ (ks : List Tree) (ks' : List RuleReader.Lhs)
    {u u' : List Text} {rs : List RuleReader.RuleNode}, readNodes ks' u = some (rs, u') →
      (tokensOf tf f ks = shapes tf rs ↔ ReadsOf ks ks' ∧ Agree f (varsOf ks) (pointersOf rs))
  | ks, [], u, u', rs, h => by
    obtain ⟨rfl, -⟩ := Prod.mk.inj (Option.some.inj h)
    cases ks with
    | nil => simp [Agree, tokensOf, shapes, ReadsOf, varsOf, pointersOf]
    | cons k ks => simp [tokensOf, shapes, ReadsOf]
  | ks, k' :: ks', u, u', rs, h => by
    simp only [readNodes, Option.bind_eq_some_iff, Option.map_eq_some_iff] at h
    obtain ⟨c, hc, d, hd, heq⟩ := h
    obtain ⟨rfl, -⟩ := Prod.mk.inj heq
    cases ks with
    | nil => simp [tokensOf, shapes, ReadsOf]
    | cons k ks =>
      rw [tokensOf, shapes, List.cons.injEq, tokens_eq_shape_iff hinj k k' hc, tokensOf_eq_shapes_iff hinj ks ks' hd,
        varsOf, pointersOf, ReadsOf]
      simpa using reads_and_agree_iff (a := True) hc

end

/-! ## The arrays compared -/

/-- Where an index does not count it is 0. -/
def IdxUnset (tf : TokenFactory T) (l : List (TreeNode T)) : Prop := ∀ n ∈ l, tf.isNativeTag n.t = false → n.idx = 0

theorem idxUnset_init (hinit : SyntaxRule.init tf blank capacity rd = some r) : IdxUnset tf r.lhsTree := by
  intro n hn htag
  obtain ⟨j, hj⟩ := mem_iff_getElem?.1 hn
  rw [lhsTree_getElem? hinit] at hj
  obtain ⟨nd, _, rfl⟩ := Option.map_eq_some_iff.1 hj
  apply if_neg
  intro hindexed
  have h : tf.isNativeTag (tokenFromLhsNode tf nd) = true := isNativeTag_tokenFromLhsNode hindexed
  change tf.isNativeTag (tokenFromLhsNode tf nd) = false at htag
  rw [h] at htag
  cases htag

theorem eq_of_same {l l' : List (TreeNode T)} (h : Forall₂ (TreeNode.Same tf) l l') :
    IdxUnset tf l → IdxUnset tf l' → l = l' := by
  induction h with
  | nil => intro _ _; rfl
  | @cons n n' l l' hn _ ih =>
    intro hl hl'
    obtain ⟨hset, hl⟩ := forall_mem_cons.1 hl
    obtain ⟨hset', hl'⟩ := forall_mem_cons.1 hl'
    obtain ⟨ht, hnext, hfirst, hidx⟩ := hn
    rw [ih hl hl']
    have hidx' : n.idx = n'.idx := by
      cases htag : tf.isNativeTag n.t with
      | true => exact hidx htag
      | false => rw [hset htag, hset' (ht ▸ htag)]
    cases n
    simp_all

/-! ## Rules that have been read -/

/-- The rule that the reader's constructor builds. -/
theorem initReader_made (hmade : rr.Made src toks) (hsize : numNodes rr.lhsRoot < capacity) (hlength : toks.length < capacity)
    (blank : RuleNode T) : SyntaxRule.initReader tf unset blank capacity rr =
      some ⟨rr.id, Rose.encode TreeNode.layout 0 (shape tf rr.lhsRoot), lexicalLoop tf (toks.map rhsLexicalItem)
        (backLinks tf 0 (Rose.encode TreeNode.layout 0 (shape tf rr.lhsRoot)) (replicate toks.length blank))⟩ := by
  obtain ⟨u', hroot, -⟩ := hmade.claims
  have hpointers : ∀ c ∈ pointers rr.lhsRoot, c ≤ capacity := by
    intro c hc
    obtain ⟨v, -, hv⟩ := (readNode_claims src hroot).exists_name hc
    have hlt := (List.getElem?_eq_some_iff.1 hv).1
    rw [length_map] at hlt
    omega
  rw [initReader_eq tf blank unset hsize (by rwa [hmade.items, length_map]) hpointers, hmade.items, length_map]

theorem lt_of_initReader {r' : SyntaxRule T} (h : SyntaxRule.initReader tf unset blank capacity rr = some r') :
    numNodes rr.lhsRoot < capacity ∧ rr.rhsLexicalItems.length < capacity := by
  unfold SyntaxRule.initReader at h
  split at h
  · cases h
  · omega

/-- The variables on the left, as both readers find them. -/
def SameVars (Tr : Tree) (src : RuleReader.Lhs) : Prop :=
  (RuleReader.vars src).map (fun v => nameIndex v.1.1) = (vars Tr).map fun v => some v.1

/-- A variable's token, and the index that it has for the grammar. -/
theorem SameVars.token (h : SameVars Tr src) (hmade : rr.Made src toks) {k : Nat} (hk : k < (pointers rr.lhsRoot).length)
    (hk' : k < (vars Tr).length) : ∃ name, toks[(pointers rr.lhsRoot)[k]]? = some name ∧ isQuoted name = false ∧
      nameIndex name = some (vars Tr)[k].1 := by
  obtain ⟨u', hroot, -⟩ := hmade.claims
  have hnamed := (readNode_claims src hroot).named
  have hget := hnamed.get hk (hnamed.length_eq ▸ hk)
  rw [List.getElem?_map, Option.map_eq_some_iff] at hget
  obtain ⟨name, hname, hunknown⟩ := hget
  obtain ⟨rfl, hquoted⟩ := RuleReader.rhsUnknown_eq_some (Subtype.prop ((RuleReader.vars src).get ⟨k, hnamed.length_eq ▸ hk⟩).1) hunknown
  refine ⟨_, hname, hquoted, ?_⟩
  have hindex := congrArg (·[k]?) h
  simpa [hk', (hnamed.length_eq ▸ hk : k < (RuleReader.vars src).length)] using hindex

theorem SameVars.length (h : SameVars Tr src) (hmade : rr.Made src toks) : (pointers rr.lhsRoot).length = (vars Tr).length := by
  obtain ⟨u', hroot, -⟩ := hmade.claims
  have hlength := congrArg List.length h
  rw [length_map, length_map] at hlength
  exact (readNode_claims src hroot).named.length_eq.trans hlength

/-- Where the tokens are the items and no variable is repeated, the positions are those of `rhs_position`. -/
theorem pointers_eq (hvars : SameVars Tr src) (hmade : rr.Made src toks) (hne : ∀ t ∈ toks, t ≠ [])
    (hwritten : Forall₂ WrittenAs rd.rhs toks) (hnodup : ((vars Tr).map Prod.fst).Nodup) :
    pointers rr.lhsRoot = (vars Tr).map fun v => rhsPosition rd v.1 := by
  have hlength := hvars.length hmade
  refine ext_getElem (by rw [length_map, hlength]) fun k hk hk' => ?_
  rw [length_map] at hk'
  rw [getElem_map]
  -- the item of the variable
  obtain ⟨name, hname, hquoted, hindex⟩ := hvars.token hmade hk hk'
  have hlt : (pointers rr.lhsRoot)[k] < rd.rhs.length := by
    rw [hwritten.length_eq]
    exact (List.getElem?_eq_some_iff.1 hname).1
  have hitem : rd.rhs[(pointers rr.lhsRoot)[k]] = .index (vars Tr)[k].1 := by
    obtain ⟨token, htoken, hw⟩ := forall₂_getElem? hwritten (getElem?_eq_getElem hlt)
    obtain rfl : name = token := Option.some.inj (hname.symm.trans htoken)
    cases hcase : rd.rhs[(pointers rr.lhsRoot)[k]] with
    | index j =>
      rw [hcase] at hw
      rw [Option.some.inj (hw.symm.trans hindex)]
    | word w =>
      rw [hcase] at hw
      rw [hw.2, isQuoted_quoted] at hquoted
      cases hquoted
  -- no other item has its index, for a variable would have taken it
  have hmem : RhsNode.index (vars Tr)[k].1 ∈ rd.rhs := hitem ▸ getElem_mem hlt
  obtain ⟨token, htoken, hw⟩ := forall₂_getElem? hwritten (List.getElem?_idxOf hmem)
  have htaken := hmade.token htoken (hne _ (mem_of_getElem? htoken))
  rw [isQuoted_of_nameIndex hw] at htaken
  have hpos : rd.rhs.idxOf (.index (vars Tr)[k].1) ∈ pointers rr.lhsRoot := by
    by_contra hnot
    rw [if_neg hnot] at htaken
    cases htaken
  obtain ⟨j, hj, hjpos⟩ := getElem_of_mem hpos
  obtain ⟨name', hname', -, hindex'⟩ := hvars.token hmade hj (hlength ▸ hj)
  rw [hjpos, htoken] at hname'
  rw [← Option.some.inj hname', hw] at hindex'
  have hkj : k = j := by
    have heq : ((vars Tr).map Prod.fst).get ⟨k, by rwa [length_map]⟩ =
        ((vars Tr).map Prod.fst).get ⟨j, by rw [length_map]; omega⟩ := by
      rw [get_eq_getElem, get_eq_getElem, getElem_map, getElem_map]
      exact Option.some.inj hindex'
    exact (hnodup.getElem_inj_iff).1 heq
  subst hkj
  exact hjpos

theorem same_of_written {rhs : List RhsNode} (h : Forall₂ WrittenAs rhs toks) : ∀ X X' : List (RuleNode T),
    X.length = rhs.length → X'.length = rhs.length → (∀ (p : Nat) i, rhs[p]? = some (.index i) → X[p]? = X'[p]?) →
      Forall₂ (RuleNode.Same tf) (rhsLoop tf rhs X) (lexicalLoop tf (toks.map rhsLexicalItem) X') := by
  induction h with
  | nil => exact fun _ _ _ _ _ => .nil
  | @cons nd token rhs toks hw _ ih =>
    intro X X' hX hX' hindex
    obtain ⟨x, X, rfl⟩ := exists_cons_of_length_eq_add_one hX
    obtain ⟨x', X', rfl⟩ := exists_cons_of_length_eq_add_one hX'
    refine .cons ?_ (ih X X' (by simpa using hX) (by simpa using hX') fun p i hp => hindex (p + 1) i hp)
    cases nd with
    | index i =>
      have hx : x = x' := Option.some.inj (hindex 0 i rfl)
      have hlex : rhsLexicalItem token = [] := by
        rw [rhsLexicalItem, isQuoted_of_nameIndex hw]
        rfl
      rw [hlex, hx]
      exact ⟨rfl, fun _ => rfl⟩
    | word w =>
      obtain ⟨hne, rfl⟩ := hw
      dsimp only
      rw [rhsLexicalItem_quoted, if_neg hne]
      -- a word refers to nothing, whatever its memory holds
      refine ⟨rfl, fun htag => ?_⟩
      simp [TokenFactory.isNativeTag, tf.type_foreignWord] at htag

/-- Memory that no word and no other memory is the same as shows what has not been written. -/
theorem written_of_same (hinj : tf.Injective) {item : RhsNode} {token : Text} (hquoted : isQuoted token = true)
    (h : RuleNode.Same tf (match item with
        | .index _ => (⟨0, tf.toplevelTag⟩ : RuleNode T)
        | .word label => ⟨0, tf.foreignWord label⟩)
      (if rhsLexicalItem token = [] then ⟨1, tf.toplevelTag⟩ else ⟨1, tf.foreignWord (rhsLexicalItem token)⟩)) :
    WrittenAs item token := by
  have hne : ∀ w, tf.toplevelTag ≠ tf.foreignWord w := by
    intro w heq
    have htype := congrArg tf.type heq
    rw [tf.type_toplevelTag, tf.type_foreignWord] at htype
    cases htype
  obtain ⟨ht, hpos⟩ := h
  by_cases hlex : rhsLexicalItem token = []
  · rw [if_pos hlex] at ht hpos
    cases item with
    | index i => exact absurd (hpos (by simp [TokenFactory.isNativeTag, tf.type_toplevelTag])) zero_ne_one
    | word w => exact absurd ht.symm (hne w)
  · rw [if_neg hlex] at ht
    cases item with
    | index i => exact absurd ht (hne _)
    | word w =>
      rw [← hinj.foreignWord ht] at hlex
      exact ⟨hlex, by rw [hinj.foreignWord ht]; exact eq_quoted hquoted (by rwa [← hinj.foreignWord ht])⟩

/-- **The two arrays are the same** just where both have read the same rule and take its variables alike. -/
theorem sameArrays_iff (hinj : tf.Injective) (hlhs : rd.lhs = flat 0 0 Tr) (hcapacity : max rd.lhs.length rd.rhs.length < capacity)
    (hmade : rr.Made src toks) (hne : ∀ t ∈ toks, t ≠ []) (hvars : SameVars Tr src) : SameArrays tf capacity rd rr ↔
      Reads Tr src ∧ Forall₂ WrittenAs rd.rhs toks ∧ (∀ v ∈ vars Tr, v.2 ≠ "TOP".toList) ∧
        ((vars Tr).map Prod.fst).Nodup := by
  obtain ⟨u', hroot, -⟩ := hmade.claims
  have htrees := fun f => tokens_eq_shape_iff hinj (f := f) Tr src hroot
  set E := Rose.encode TreeNode.layout 0 (shape tf rr.lhsRoot) with hE
  constructor
  · intro hsame
    obtain ⟨r, r', hinit, hr', hsame⟩ := hsame ⟨0, tf.toplevelTag⟩ ⟨1, tf.toplevelTag⟩ tf.toplevelTag
    obtain ⟨hsize, hlength⟩ := lt_of_initReader hr'
    rw [hmade.items, length_map] at hlength
    rw [initReader_made hmade hsize hlength] at hr'
    obtain rfl := Option.some.inj hr'
    have htree : r.lhsTree = E := eq_of_same hsame.lhs (idxUnset_init hinit) (idx_shape rr.lhsRoot 0)
    obtain ⟨hreads, htop, hpointers⟩ := (htrees (rhsPosition rd)).1
      (Rose.encode_injective ((lhsTree_eq_encode hlhs hinit).symm.trans htree))
    have hnodup : ((vars Tr).map Prod.fst).Nodup := by
      have hpositions : (((vars Tr).map Prod.fst).map (rhsPosition rd)).Nodup := by
        rw [map_map]
        exact hpointers ▸ (readNode_claims src hroot).nodup
      exact hpositions.of_map
    refine ⟨hreads, ?_, htop, hnodup⟩
    have hrhs := hsame.rhs
    rw [rhsRule_eq_backLinks hlhs hinit, htree] at hrhs
    rw [← hE] at hrhs
    have hlengths : rd.rhs.length = toks.length := by
      have h := hrhs.length_eq
      rwa [rhsLoop, lexicalLoop, length_zipWith, length_zipWith, backLinks, length_setLoop, length_setLoop, length_replicate,
        length_replicate, length_map, Nat.min_self, Nat.min_self] at h
    refine forall₂_of_length_eq_of_get hlengths fun p hp hp' => ?_
    by_cases hmem : p ∈ pointers rr.lhsRoot
    · obtain ⟨k, hk, rfl⟩ := getElem_of_mem hmem
      have hk' : k < (vars Tr).length := hvars.length hmade ▸ hk
      obtain ⟨name, hname, -, hindex⟩ := hvars.token hmade hk hk'
      have hpos : (pointers rr.lhsRoot)[k] = rhsPosition rd (vars Tr)[k].1 := by
        simp only [hpointers, getElem_map]
      have hitem : rd.rhs.get ⟨_, hp⟩ = .index (vars Tr)[k].1 := by
        simp only [hpos]
        exact getElem_idxOf _
      rw [hitem, get_eq_getElem]
      rw [getElem?_eq_getElem hp', Option.some.injEq] at hname
      rw [hname]
      exact hindex
    · have hquoted := hmade.token (getElem?_eq_getElem hp') (hne _ (getElem_mem _))
      rw [if_neg hmem] at hquoted
      -- neither constructor has written there but for a word
      have hblank : ∀ blank : RuleNode T, (backLinks tf 0 E (replicate toks.length blank))[p]? = some blank := by
        intro blank
        rw [backLinks, setLoop_of_forall_ne E 0 _ fun n hn hindexed hidx => hmem ((exists_leaf_iff _ _ _).1 ⟨n, hn, hindexed, hidx⟩),
          getElem?_replicate, if_pos hp']
      have hentry := hrhs.get (i := p) (by
        rw [rhsLoop, length_zipWith, backLinks, length_setLoop, length_replicate, Nat.min_self]
        exact hp) (by
        rw [lexicalLoop, length_zipWith, backLinks, length_setLoop, length_replicate, length_map, Nat.min_self]
        exact hp')
      refine written_of_same hinj hquoted ?_
      have hx := hblank ⟨0, tf.toplevelTag⟩
      have hx' := hblank ⟨1, tf.toplevelTag⟩
      rw [← hlengths] at hx
      simp only [rhsLoop, lexicalLoop, get_eq_getElem, getElem_zipWith, getElem_map,
        (List.getElem?_eq_some_iff.1 hx).2, (List.getElem?_eq_some_iff.1 hx').2] at hentry
      exact hentry
  · rintro ⟨hreads, hwritten, htop, hnodup⟩ blank blank' unset
    have hpointers := pointers_eq hvars hmade hne hwritten hnodup
    have htree : tokens tf (rhsPosition rd) Tr = shape tf rr.lhsRoot := (htrees (rhsPosition rd)).2 ⟨hreads, htop, hpointers⟩
    have hsize : numNodes rr.lhsRoot < capacity := by
      rw [← @size_shape _ tf, ← htree, size_tokens, ← length_flat Tr 0 0, ← hlhs]
      exact lt_of_le_of_lt (le_max_left _ _) hcapacity
    have hlength : toks.length < capacity := by
      rw [← hwritten.length_eq]
      exact lt_of_le_of_lt (le_max_right _ _) hcapacity
    obtain ⟨r, hinit⟩ : ∃ r, SyntaxRule.init tf blank capacity rd = some r := ⟨_, if_neg (not_le.2 hcapacity)⟩
    have hr : r.lhsTree = E := by rw [lhsTree_eq_encode hlhs hinit, htree]
    refine ⟨r, _, hinit, initReader_made hmade hsize hlength blank', ?_, ?_⟩
    · rw [hr]
      exact List.forall₂_same.2 fun n _ => ⟨rfl, rfl, rfl, fun _ => rfl⟩
    · rw [rhsRule_eq_backLinks hlhs hinit, hr]
      refine same_of_written hwritten _ _ (by rw [backLinks, length_setLoop, length_replicate])
        (by rw [backLinks, length_setLoop, length_replicate, hwritten.length_eq]) fun p i hp => ?_
      refine backLinks_congr E 0 _ _ (by rw [length_replicate, length_replicate, hwritten.length_eq]) (.inr ?_)
      -- a variable that is left over would still be unknown
      obtain ⟨token, htoken, hw⟩ := forall₂_getElem? hwritten hp
      have htaken := hmade.token htoken (hne _ (mem_of_getElem? htoken))
      rw [isQuoted_of_nameIndex hw] at htaken
      rw [exists_leaf_iff]
      by_contra hnot
      rw [if_neg hnot] at htaken
      cases htaken

/-- **The array of a rule is its tree**, and the rule reader's array is the same just where both have read the same labels,
words and right-hand side, no variable is labelled `TOP` and none is repeated. -/
theorem init_encodes (tf : TokenFactory T) (hinj : tf.Injective) (blank blank' : RuleNode T) (unset : T) (capacity : Nat)
    {rd : RuleData D} {Tr : Tree} {r : SyntaxRule T} (hlhs : rd.lhs = flat 0 0 Tr)
    (hinit : SyntaxRule.init tf blank capacity rd = some r) :
    r.Encodes capacity (tokens tf (rhsPosition rd) Tr) ∧
      (∀ (j : Nat) nd n, rd.lhs[j]? = some nd → r.lhsTree[j]? = some n → nd.next ≠ 0 → j + n.nextSibling = nd.next) ∧
      ∀ src rhs rr, RuleReader.Rule.read rd.id src rhs = some rr → SameVars Tr src →
        (∀ r', SyntaxRule.initReader tf unset blank' capacity rr = some r' → r'.Encodes capacity (shape tf rr.lhsRoot)) ∧
        (SameArrays tf capacity rd rr ↔ Reads Tr src ∧ Forall₂ WrittenAs rd.rhs (rhsTokens rhs) ∧
          (∀ v ∈ vars Tr, v.2 ≠ "TOP".toList) ∧ ((vars Tr).map Prod.fst).Nodup) := by
  obtain ⟨hsize, hrhs⟩ := length_lt_of_init hinit
  have hsize' := hsize
  rw [hlhs, length_flat] at hsize'
  refine ⟨encodes_of_eq (lhsTree_eq_encode hlhs hinit) (by rw [size_tokens]; exact hsize'),
    fun j nd n hnd hn => nextSibling_eq hlhs hinit hnd hn, fun src rhs rr hread hvars => ?_⟩
  obtain ⟨hmade, -⟩ := RuleReader.Rule.read_made hread
  refine ⟨fun r' hr' => ?_, sameArrays_iff hinj hlhs (max_lt hsize hrhs) hmade (fun t ht => ?_) hvars⟩
  · obtain ⟨hnodes, hlength⟩ := lt_of_initReader hr'
    rw [initReader_made hmade hnodes (by rwa [hmade.items, length_map] at hlength)] at hr'
    obtain rfl := Option.some.inj hr'
    exact encodes_of_eq rfl (by rw [size_shape]; exact hnodes)
  · exact of_decide_eq_true (mem_filter.1 ht).2

end

/-! ## Rules that both readers take -/

theorem fat_injective : TokenFactory.fat.Injective :=
  ⟨fun _ _ h => congrArg Prod.fst h, fun _ _ h => congrArg Prod.fst h, fun _ _ h => congrArg Prod.fst h⟩

/-- `S(N("a") x0:V x1:P)` -/
def swappedTree : Tree := .node ['S'] (.lex ['N'] ['a']) [.var 0 ['V'], .var 1 ['P']]

def swappedLhs : RuleReader.Lhs :=
  .node ['S'] (.lex ['N'] ['a']) [.var ⟨['x', '0'], by decide⟩ ['V'], .var ⟨['x', '1'], by decide⟩ ['P']]

def swapped : RuleData Nat := ⟨flat 0 0 swappedTree, [.index 1, .word ['b'], .index 0], [], 1⟩

theorem init_encodes_swapped : ∃ r rr, SyntaxRule.init .fat ⟨7, [], .foreign⟩ 255 swapped = some r ∧
    RuleReader.Rule.read 1 swappedLhs "x1 \"b\" x0".toList = some rr ∧ SameArrays .fat 255 swapped rr := by
  obtain ⟨r, hinit⟩ : ∃ r, SyntaxRule.init .fat ⟨7, [], .foreign⟩ 255 swapped = some r :=
    Option.isSome_iff_exists.1 (by decide)
  obtain ⟨rr, hread⟩ : ∃ rr, RuleReader.Rule.read 1 swappedLhs "x1 \"b\" x0".toList = some rr :=
    Option.isSome_iff_exists.1 (by decide +kernel)
  obtain ⟨-, hsame⟩ := (init_encodes .fat fat_injective ⟨7, [], .foreign⟩ ⟨9, [], .native⟩ ([], .native) 255
    (rfl : swapped.lhs = flat 0 0 swappedTree) hinit).2.2 swappedLhs _ rr hread rfl
  refine ⟨r, rr, hinit, hread, hsame.2 ⟨⟨rfl, ⟨rfl, rfl⟩, rfl, rfl, trivial⟩, ?_, by decide, by decide⟩⟩
  exact .cons rfl (.cons ⟨by decide, rfl⟩ (.cons rfl .nil))

/-- A variable labelled `TOP`: one reader has the toplevel tag, the other a tag of that name. -/
theorem not_init_encodes : ¬ ∀ (Tr : Tree) (src : RuleReader.Lhs) (rhs : Text) (rd : RuleData Nat)
    (blank : RuleNode (Text × TokenType)) (r : SyntaxRule (Text × TokenType)) (rr : RuleReader.Rule), rd.lhs = flat 0 0 Tr →
      Reads Tr src → SameVars Tr src → (rhsItems [] rhs).1 = rd.rhs → SyntaxRule.init .fat blank 255 rd = some r →
        RuleReader.Rule.read rd.id src rhs = some rr →
          r.Encodes 255 (tokens .fat (rhsPosition rd) Tr) ∧ SameArrays .fat 255 rd rr := by
  intro h
  let rd : RuleData Nat := ⟨flat 0 0 (.node ['X'] (.var 0 ['T', 'O', 'P']) []), [.index 0], [], 1⟩
  let src : RuleReader.Lhs := .node ['X'] (.var ⟨['x', '0'], by decide⟩ ['T', 'O', 'P']) []
  have hdiffer : ((SyntaxRule.init .fat ⟨7, [], .foreign⟩ 255 rd).bind fun r =>
      (RuleReader.Rule.read 1 src ['x', '0']).bind fun rr =>
        (SyntaxRule.initReader .fat ([], .native) ⟨7, [], .foreign⟩ 255 rr).map fun r' => decide (r.Same .fat r')) =
          some false := by
    decide +kernel
  simp only [Option.bind_eq_some_iff, Option.map_eq_some_iff] at hdiffer
  obtain ⟨r, hinit, rr, hread, r', hr', hsame⟩ := hdiffer
  obtain ⟨r1, r2, hr1, hr2, hsame'⟩ := (h (.node ['X'] (.var 0 ['T', 'O', 'P']) []) src ['x', '0'] rd ⟨7, [], .foreign⟩ r rr
    rfl ⟨rfl, rfl, trivial⟩ rfl (by decide +kernel) hinit hread).2 ⟨7, [], .foreign⟩ ⟨7, [], .foreign⟩ ([], .native)
  obtain rfl := Option.some.inj (hinit.symm.trans hr1)
  obtain rfl := Option.some.inj (hr'.symm.trans hr2)
  exact of_decide_eq_false hsame hsame'

/-- Words with nothing between them: two for the grammar, one for the rule reader. -/
example : (rhsItems [] "x0 \"a\"\"b\"".toList).1 = [.index 0, .word ['a'], .word ['b']] ∧
    (rhsTokens "x0 \"a\"\"b\"".toList).map rhsLexicalItem = [[], "a\"\"b".toList] := by decide +kernel

end Sbmt.Xrs
