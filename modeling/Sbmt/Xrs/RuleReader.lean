import Sbmt.Xrs.LhsLinks
/-!
# The rule reader: which position a variable takes (`RuleReader/src/Rule.cc:343-542`)

| here | there |
| --- | --- |
| `RuleNode`, `numNodes` | `ns_RuleReader::RuleNode` (`RuleReader/RuleNode.h:37-169`, `RuleNode.cc:484-500`) |
| `rhsTokens`, `rhsUnknown`, `rhsLexicalItem` | `while (is >> token)` over the right-hand side (`Rule.cc:368-385`) |
| `claim` | `for (counter …) if (rhsUnknown.at(counter) == xrsState)` (`:424-454`, `:476-515`) |
| `readNode`, `Rule.read` | `Rule::init` of a real rule, when `segment_rule_string` has cut the line (`:343-542`) |

The reader scans the left-hand side from left to right.  Here it is given as the tree that its brackets make.  The
right-hand side is a text, which is cut at white space: a token that begins and ends with a quote mark is a word, whatever
stands between.  A variable takes the first token of its name that no variable to its left has taken: with a repeated
name the positions differ, where `rhs_position` finds one and the same.
-/

namespace Sbmt.Xrs.RuleReader

open Sbmt.Lib.Phrase List Option

/-- What stands before the colon of a variable: `xrsState`. -/
abbrev Name := {name : Text // name ≠ []}

inductive Lhs where
  | var (name : Name) (label : Text)
  | lex (label word : Text)
  | node (label : Text) (first : Lhs) (rest : List Lhs)

/-- A nonterminal is never left without a child. -/
inductive RuleNode where
  | lexical (str : Text)
  | pointer (rhsIndex : Nat) (pos : Text)
  | nonterminal (str : Text) (first : RuleNode) (rest : List RuleNode)

structure Rule where
  id : Int64
  lhsRoot : RuleNode
  /-- The words of the right-hand side, empty for a variable. -/
  rhsLexicalItems : List Text

mutual

def numNodes : RuleNode → Nat
  | .lexical _ => 1
  | .pointer _ _ => 1
  | .nonterminal _ k ks => 1 + (numNodes k + numNodesOf ks)

def numNodesOf : List RuleNode → Nat
  | [] => 0
  | k :: ks => numNodes k + numNodesOf ks

end

def rhsTokens (rhs : Text) : List Text := (rhs.splitOnP isSpace).filter fun token => token ≠ []

/-- `token[0]=='"' && token[token.length()-1]=='"'` -/
def isQuoted (token : Text) : Bool := token.head? = some '"' && token.getLast? = some '"'

def rhsUnknown (token : Text) : Text := if isQuoted token then [] else token

/-- `token.substr(1, token.length()-2)` -/
def rhsLexicalItem (token : Text) : Text := if isQuoted token then token.tail.dropLast else []

/-- The token that a variable takes is not unknown any more; `none`: "xRs state … missing from RHS of real rule". -/
def claim (name : Name) (unknown : List Text) : Option (Nat × List Text) :=
  if name.1 ∈ unknown then some (unknown.idxOf name.1, unknown.set (unknown.idxOf name.1) []) else none

mutual

/-- A part of the left-hand side; what is unknown is passed on to the right. -/
def readNode : Lhs → List Text → Option (RuleNode × List Text)
  | .var name l, unknown => (claim name unknown).map fun c => (.pointer c.1 l, c.2)
  | .lex l w, unknown => some (.nonterminal l (.lexical w) [], unknown)
  | .node l k ks, unknown => (readNode k unknown).bind fun c =>
    (readNodes ks c.2).map fun d => (.nonterminal l c.1 d.1, d.2)

def readNodes : List Lhs → List Text → Option (List RuleNode × List Text)
  | [], unknown => some ([], unknown)
  | k :: ks, unknown => (readNode k unknown).bind fun c => (readNodes ks c.2).map fun d => (c.1 :: d.1, d.2)

end

/-- `none`: a variable is missing on the right, or "unquoted rhs item in real rule doesn't match an lhs variable". -/
def Rule.read (id : Int64) (lhs : Lhs) (rhs : Text) : Option Rule :=
  (readNode lhs ((rhsTokens rhs).map rhsUnknown)).bind fun c =>
    if ∀ item ∈ c.2, item = [] then some ⟨id, c.1, (rhsTokens rhs).map rhsLexicalItem⟩ else none

/-! ## The positions that are taken -/

mutual

/-- The variables of a left-hand side from left to right, with their labels. -/
def vars : Lhs → List (Name × Text)
  | .var name l => [(name, l)]
  | .lex _ _ => []
  | .node _ k ks => vars k ++ varsOf ks

def varsOf : List Lhs → List (Name × Text)
  | [] => []
  | k :: ks => vars k ++ varsOf ks

end

mutual

/-- The positions that a node's variables have taken. -/
def pointers : RuleNode → List Nat
  | .lexical _ => []
  | .pointer c _ => [c]
  | .nonterminal _ k ks => pointers k ++ pointersOf ks

def pointersOf : List RuleNode → List Nat
  | [] => []
  | k :: ks => pointers k ++ pointersOf ks

end

/-- A run of claims: each takes a token of its own, of its name, and changes no other. -/
structure Claims (vs : List (Name × Text)) (u : List Text) (cs : List Nat) (u' : List Text) : Prop where
  named : Forall₂ (fun c v => u[c]? = some v.1.1) cs vs
  nodup : cs.Nodup
  taken : ∀ c ∈ cs, u'[c]? = some []
  frame : ∀ i : Nat, i ∉ cs → u'[i]? = u[i]?

theorem claim_claims {v : Name} {l : Text} {c : Nat} {u u' : List Text} (h : claim v u = some (c, u')) :
    Claims [(v, l)] u [c] u' := by
  simp only [claim, ite_none_right_eq_some, Option.some.injEq, Prod.mk.injEq] at h
  obtain ⟨hmem, rfl, rfl⟩ := h
  refine ⟨.cons (List.getElem?_idxOf hmem) .nil, nodup_singleton _, fun c hc => ?_, fun i hi => ?_⟩
  · rw [mem_singleton.1 hc]
    exact getElem?_set_self (idxOf_lt_length_of_mem hmem)
  · exact getElem?_set_ne fun heq => hi (mem_singleton.2 heq.symm)

variable {vs ws : List (Name × Text)} {u u1 u' : List Text} {cs ds : List Nat}

theorem Claims.exists_name (h : Claims vs u cs u') {c : Nat} (hc : c ∈ cs) : ∃ v ∈ vs, u[c]? = some v.1.1 := by
  obtain ⟨k, hk, rfl⟩ := getElem_of_mem hc
  exact ⟨_, getElem_mem _, h.named.get hk (h.named.length_eq ▸ hk)⟩

theorem Claims.append (h1 : Claims vs u cs u1) (h2 : Claims ws u1 ds u') : Claims (vs ++ ws) u (cs ++ ds) u' := by
  -- what has been taken is empty, which is no name
  have hdisjoint : ∀ c ∈ cs, c ∉ ds := by
    intro c hc hd
    obtain ⟨v, -, hv⟩ := h2.exists_name hd
    rw [h1.taken c hc] at hv
    exact v.1.2 (Option.some.inj hv).symm
  constructor
  · refine rel_append h1.named (forall₂_of_length_eq_of_get h2.named.length_eq fun k hk hk' => ?_)
    rw [← h1.frame _ fun hc => hdisjoint _ hc (get_mem ..)]
    exact h2.named.get hk hk'
  · exact h1.nodup.append h2.nodup hdisjoint
  · intro c hc
    rcases mem_append.1 hc with hc | hc
    · rw [h2.frame c (hdisjoint c hc), h1.taken c hc]
    · exact h2.taken c hc
  · intro i hi
    rw [mem_append, not_or] at hi
    rw [h2.frame i hi.2, h1.frame i hi.1]

mutual

/-- The reader lets the variables take their positions one after another. -/
theorem readNode_claims : ∀ (lhs : Lhs) {u u' : List Text} {r : RuleNode}, readNode lhs u = some (r, u') →
    Claims (vars lhs) u (pointers r) u'
  | .var name l, u, u', r, h => by
    obtain ⟨c, hc, heq⟩ := map_eq_some_iff.1 h
    obtain ⟨rfl, rfl⟩ := Prod.mk.inj heq
    exact claim_claims hc
  | .lex l w, u, u', r, h => by
    obtain ⟨rfl, rfl⟩ := Prod.mk.inj (Option.some.inj h)
    exact ⟨.nil, nodup_nil, fun c hc => absurd hc not_mem_nil, fun _ _ => rfl⟩
  | .node l k ks, u, u', r, h => by
    simp only [readNode, bind_eq_some_iff, map_eq_some_iff] at h
    obtain ⟨c, hc, d, hd, heq⟩ := h
    obtain ⟨rfl, rfl⟩ := Prod.mk.inj heq
    exact (readNode_claims k hc).append (readNodes_claims ks hd)

theorem readNodes_claims : ∀ (ks : List Lhs) {u u' : List Text} {rs : List RuleNode}, readNodes ks u = some (rs, u') →
    Claims (varsOf ks) u (pointersOf rs) u'
  | [], u, u', rs, h => by
    obtain ⟨rfl, rfl⟩ := Prod.mk.inj (Option.some.inj h)
    exact ⟨.nil, nodup_nil, fun c hc => absurd hc not_mem_nil, fun _ _ => rfl⟩
  | k :: ks, u, u', rs, h => by
    simp only [readNodes, bind_eq_some_iff, map_eq_some_iff] at h
    obtain ⟨c, hc, d, hd, heq⟩ := h
    obtain ⟨rfl, rfl⟩ := Prod.mk.inj heq
    exact (readNode_claims k hc).append (readNodes_claims ks hd)

end

/-! ## What has been read -/

/-- What the reader of a rule has made. -/
structure Rule.Made (lhs : Lhs) (toks : List Text) (rr : Rule) : Prop where
  items : rr.rhsLexicalItems = toks.map rhsLexicalItem
  claims : ∃ u', readNode lhs (toks.map rhsUnknown) = some (rr.lhsRoot, u') ∧ ∀ item ∈ u', item = []

theorem Rule.read_made {id : Int64} {lhs : Lhs} {rhs : Text} {rr : Rule} (h : Rule.read id lhs rhs = some rr) :
    rr.Made lhs (rhsTokens rhs) ∧ rr.id = id := by
  simp only [Rule.read, bind_eq_some_iff, ite_none_right_eq_some] at h
  obtain ⟨c, hc, hall, heq⟩ := h
  obtain rfl := Option.some.inj heq
  exact ⟨⟨rfl, c.2, hc, hall⟩, rfl⟩

theorem rhsUnknown_eq_some {token name : Text} (hname : name ≠ []) (h : rhsUnknown token = name) :
    token = name ∧ isQuoted token = false := by
  unfold rhsUnknown at h
  split at h
  · exact absurd h.symm hname
  · rename_i hquoted
    exact ⟨h, Bool.eq_false_iff.2 hquoted⟩

/-- The tokens that variables have taken are their names, and all others are quoted. -/
theorem Rule.Made.token {lhs : Lhs} {toks : List Text} {rr : Rule} (h : rr.Made lhs toks) {p : Nat} {token : Text}
    (hp : toks[p]? = some token) (hne : token ≠ []) :
    if p ∈ pointers rr.lhsRoot then isQuoted token = false else isQuoted token = true := by
  obtain ⟨u', hroot, hall⟩ := h.claims
  have hclaims := readNode_claims lhs hroot
  split
  · rename_i hmem
    obtain ⟨v, -, hv⟩ := hclaims.exists_name hmem
    rw [getElem?_map, hp] at hv
    exact (rhsUnknown_eq_some v.1.2 (Option.some.inj hv)).2
  · rename_i hmem
    have hframe := hclaims.frame p hmem
    rw [getElem?_map, hp] at hframe
    have hempty : rhsUnknown token = [] := hall _ (mem_of_getElem? hframe)
    by_contra hquoted
    rw [rhsUnknown, if_neg hquoted] at hempty
    exact hne hempty

end Sbmt.Xrs.RuleReader
