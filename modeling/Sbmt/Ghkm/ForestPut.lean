import Sbmt.Ghkm.ForestGet
import Sbmt.Ghkm.ForestWords

/-!
# A packed forest written and read back (`PackedForest.C:79-332`)

What `put` writes for a node is a form (`OrForm.Prints`): in full at the first visit, a reference afterwards.  Loading
it makes the nodes that have been written out, each once and with its alternatives in order (`Step.represented`), since
a node whose alternatives are still being read is not below itself in an acyclic forest.
-/

namespace Sbmt.Ghkm.ForestText

open Sbmt.Lib Sbmt.Lib.Phrase Sbmt.Lib.Istream List

/-! ## Forests that are written -/

/-- A pointer leads from the node at `i` to the node at `j`. -/
def Child (nodes : List OrNode) (i j : Nat) : Prop :=
  ∃ (n : OrNode) (a : AndNode), nodes[i]? = some n ∧ a ∈ n.alternatives ∧ some j ∈ a.children

/-- An acyclic packed forest with distinct ids, whose labels are words and whose leaves stand alone.  A label is
that of an AND node with children, or the word of one without. -/
structure Printable (f : PackedForest) : Prop where
  root : ∀ i, f.root = some i → i < f.nodes.length
  pointers : ∀ n ∈ f.nodes, ∀ a ∈ n.alternatives, ∀ p ∈ a.children, Within f.nodes.length p
  acyclic : ∀ i, ¬ Relation.TransGen (Child f.nodes) i i
  ids : (f.nodes.map OrNode.id).Nodup
  range : ∀ n ∈ f.nodes, InInt n.id
  labels : ∀ n ∈ f.nodes, ∀ a ∈ n.alternatives, IsWord a.label
  words : ∀ n ∈ f.nodes, ∀ a ∈ n.alternatives, a.children = [] → ¬ rrb <:+: a.label ∧ ¬ lrb <:+: a.label
  alone : ∀ n ∈ f.nodes, ∀ a ∈ n.alternatives, a.children = [] → n.alternatives = [a]

/-- A one-to-one correspondence of what can be reached, which keeps ids, labels, words and the order of alternatives and
children. -/
structure Isomorphism (f g : PackedForest) (R : Nat → Nat → Prop) : Prop where
  root : Option.Rel R f.root g.root
  node : ∀ i j, R i j → ∃ n m : OrNode, f.nodes[i]? = some n ∧ g.nodes[j]? = some m ∧ n.id = m.id ∧
    Forall₂ (fun a b : AndNode => a.label = b.label ∧ Forall₂ (Option.Rel R) a.children b.children)
      n.alternatives m.alternatives
  sharing : ∀ i j i' j', R i j → R i' j' → (i = i' ↔ j = j')

def RoundTrips (junk : Junk) (f : PackedForest) : Prop := ∃ N, ∀ fuel, N ≤ fuel → ∃ text g R,
  put fuel f = .ok text ∧ get junk fuel .empty text = .ok g ∧ Isomorphism f g R

/-! ## Forms that are printed -/

/-- The text is a form, whatever follows it, and begins as an OR node is written. -/
def OrForm.Prints (F : OrForm) (text : Text) : Prop := (∃ u, text = ' ' :: '(' :: u) ∧ ∀ r, F.Spells (text ++ r) r

def printsAlternatives (as : List AndForm) (text : Text) : Prop :=
  (as ≠ [] → ∃ u, text = ' ' :: u) ∧ ∀ r, spellsAlternatives as (skip (text ++ ')' :: r)) r

def printsChildren (cs : List OrForm) (text : Text) : Prop :=
  (cs ≠ [] → ∃ u, text = ' ' :: u) ∧ ∀ r, spellsChildren cs (skip (text ++ ')' :: r)) r

variable {F : OrForm} {as : List AndForm} {cs : List OrForm} {t u r w : Text} {id : Int}

theorem skip_blank (t : Text) : skip (' ' :: t) = t.dropWhile isSpace := rfl

theorem dropWhile_of_head {c : Char} (h : isSpace c = false) : (c :: t).dropWhile isSpace = c :: t :=
  dropWhile_cons_of_neg (by simp [h])

theorem OrForm.Spells.skip (h : F.Spells t r) : F.Spells (skip t) r := by
  have hmark : ∀ {u}, Marked t u → Marked (ForestText.skip t) u := by
    rintro u ⟨v, hv, hu⟩
    exact ⟨v, (dropWhile_skip t).trans hv, hu⟩
  cases F with
  | ref id =>
    obtain ⟨u, ⟨v, hv, hid⟩, hr⟩ := h
    exact ⟨u, ⟨v, hmark hv, hid⟩, hr⟩
  | node id as =>
    obtain ⟨u, ⟨v, hv, hid⟩, hr⟩ := h
    exact ⟨u, ⟨v, hmark hv, hid⟩, hr⟩

theorem spellsWord_of_isWord (hspace : ∀ c ∈ w, isSpace c = false) (hparen : ')' ∉ w) :
    SpellsWord w (w ++ ')' :: r) r := by
  induction w with
  | nil => rfl
  | cons c w ih =>
    obtain ⟨hc, hw⟩ := ne_and_not_mem_of_not_mem_cons hparen
    refine ⟨?_, w ++ ')' :: r, dropWhile_of_head (hspace c mem_cons_self),
      ih (fun d hd => hspace d (mem_cons_of_mem c hd)) hw⟩
    simp [Ne.symm hc]

theorem printsAlternatives_nil : printsAlternatives [] [] := ⟨nofun, fun _ => rfl⟩

theorem printsAlternatives_leaf (hw : IsWord w) (hl : '(' ∉ w) (hr : ')' ∉ w) :
    printsAlternatives [.leaf w] (' ' :: w) := by
  refine ⟨fun _ => ⟨w, rfl⟩, fun r => ?_⟩
  obtain ⟨c, v, rfl⟩ := exists_cons_of_ne_nil hw.1
  have hc := hw.2 c mem_cons_self
  have hblank : c ≠ ' ' := by rintro rfl; exact absurd hc (by decide)
  have hskip : skip (' ' :: (c :: v) ++ ')' :: r) = c :: v ++ ')' :: r := dropWhile_of_head hc
  have hagain : skip (c :: v ++ ')' :: r) = c :: v ++ ')' :: r := skip_of_head (by simpa using hblank)
  have hcl : c ≠ '(' := fun h => hl (h ▸ mem_cons_self)
  have hcr : c ≠ ')' := fun h => hr (h ▸ mem_cons_self)
  rw [hskip]
  refine ⟨by simpa using hcr, ')' :: r, ⟨?_, r, rfl, ?_⟩, rfl⟩
  · rw [hagain]
    simpa using hcl
  · rw [hagain]
    exact spellsWord_of_isWord hw.2 hr

theorem printsAlternatives_node (hw : IsWord w) (hcs : printsChildren cs t) (hne : cs ≠ [])
    (has : printsAlternatives as u) :
    printsAlternatives (.node w cs :: as) (' ' :: '(' :: (w ++ ' ' :: (t ++ [')'])) ++ u) := by
  refine ⟨fun _ => ⟨_, rfl⟩, fun r => ?_⟩
  obtain ⟨c, v, rfl⟩ := exists_cons_of_ne_nil hw.1
  obtain ⟨t', rfl⟩ := hcs.1 hne
  let rest := u ++ ')' :: r
  have htext : (' ' :: '(' :: (c :: v ++ ' ' :: (' ' :: t' ++ [')'])) ++ u) ++ ')' :: r =
      ' ' :: '(' :: (c :: v ++ ' ' :: (' ' :: t' ++ ')' :: rest)) := by simp [rest]
  have hskip : skip ('(' :: (c :: v ++ ' ' :: (' ' :: t' ++ ')' :: rest))) =
      '(' :: (c :: v ++ ' ' :: (' ' :: t' ++ ')' :: rest)) := skip_of_head (by simp)
  have hfirst : (c :: v ++ ' ' :: (' ' :: t' ++ ')' :: rest)).dropWhile isSpace =
      c :: v ++ ' ' :: (' ' :: t' ++ ')' :: rest) := dropWhile_of_head (hw.2 c mem_cons_self)
  have hrun := takeWhile_run (p := (!isSpace ·)) (w := c :: v) (t := ' ' :: (' ' :: t' ++ ')' :: rest))
    (fun d hd => by simp [hw.2 d hd]) (by simp [isSpace])
  rw [htext, skip_blank, dropWhile_of_head rfl]
  refine ⟨by simp, rest, ⟨_, ' ' :: (' ' :: t' ++ ')' :: rest), hskip, ⟨?_, ?_, cons_ne_nil _ _⟩, hcs.2 rest⟩,
    has.2 r⟩
  · rw [hfirst, hrun.1]
  · rw [hfirst, hrun.2]

theorem printsChildren_nil : printsChildren [] [] := ⟨nofun, fun _ => rfl⟩

theorem printsChildren_cons (hF : F.Prints t) (hcs : printsChildren cs u) : printsChildren (F :: cs) (t ++ u) := by
  obtain ⟨⟨v, rfl⟩, hspells⟩ := hF
  refine ⟨fun _ => ⟨_, rfl⟩, fun r => ?_⟩
  have htext : (' ' :: '(' :: v ++ u) ++ ')' :: r = ' ' :: '(' :: v ++ (u ++ ')' :: r) := append_assoc _ _ _
  have hskip : skip (' ' :: '(' :: v ++ (u ++ ')' :: r)) = '(' :: v ++ (u ++ ')' :: r) := rfl
  rw [htext]
  exact ⟨by rw [hskip]; simp, _, (hspells _).skip, hcs.2 r⟩

/-! ## What an OR node is written as -/

/-- `" (#" << id << text << ")"`. -/
def orText (id : Int) (text : Text) : Text := ' ' :: '(' :: '#' :: (showInt id ++ (text ++ [')']))

theorem opens_orText (hid : InInt id) (ht : t = [] ∨ ∃ u, t = ' ' :: u) (r : Text) :
    Opens (orText id t ++ r) id (t ++ ')' :: r) := by
  have htext : orText id t ++ r = ' ' :: '(' :: '#' :: (showInt id ++ (t ++ ')' :: r)) := by simp [orText]
  have hhead : ∀ c ∈ (t ++ ')' :: r).head?, c.isDigit = false := by
    rcases ht with rfl | ⟨u, rfl⟩ <;> rintro c ⟨⟩ <;> rfl
  rw [htext]
  exact ⟨_, ⟨_, rfl, rfl⟩, readsInt_showInt hid (by simp) hhead⟩

theorem prints_ref (hid : InInt id) : (OrForm.ref id).Prints (orText id []) :=
  ⟨⟨_, rfl⟩, fun r => ⟨_, opens_orText hid (.inl rfl) r, rfl⟩⟩

theorem prints_node (hid : InInt id) (hne : as ≠ []) (has : printsAlternatives as t) :
    (OrForm.node id as).Prints (orText id t) := by
  obtain ⟨u, rfl⟩ := has.1 hne
  exact ⟨⟨_, rfl⟩, fun r => ⟨_, opens_orText hid (.inr ⟨u, rfl⟩) r, hne, has.2 r⟩⟩

/-! ## The nodes that have been written -/

variable {nodes T T' : List OrNode} {written written' : List Int} {i j : Nat} {n m : OrNode} {a b : AndNode}
  {p p' : Option Nat}

/-- What is read back for a label. -/
def readLabel (a : AndNode) : Text := if a.children = [] then unescape (escape a.label) else a.label

def PtrMatch (nodes T : List OrNode) (p p' : Option Nat) : Prop :=
  ∃ (i : Nat) (n : OrNode) (j : Nat), p = some i ∧ nodes[i]? = some n ∧ p' = some j ∧ getORNode T n.id = some j

def AltMatch (nodes T : List OrNode) (a b : AndNode) : Prop :=
  b.label = readLabel a ∧ Forall₂ (PtrMatch nodes T) a.children b.children

def NodeMatch (nodes T : List OrNode) (n : OrNode) : Prop :=
  ∃ (j : Nat) (m : OrNode), getORNode T n.id = some j ∧ T[j]? = some m ∧ Forall₂ (AltMatch nodes T) n.alternatives m.alternatives

/-- Every node that has been written out has been read, and no other has its id. -/
def Represented (nodes : List OrNode) (written : List Int) (T : List OrNode) : Prop :=
  ∀ (i : Nat) (n : OrNode), nodes[i]? = some n → n.id ∈ written → NodeMatch nodes T n

/-- None of the nodes in `C` has been read before it is written. -/
def Fresh (nodes : List OrNode) (C : Nat → Prop) (written : List Int) (T : List OrNode) : Prop :=
  ∀ (k : Nat) (n : OrNode), C k → nodes[k]? = some n → n.id ∉ written → n.id ∉ T.map OrNode.id

/-- What is written out and read for nodes in `C`. -/
structure Step (nodes : List OrNode) (C : Nat → Prop) (written : List Int) (T : List OrNode) (written' : List Int)
    (T' : List OrNode) : Prop where
  pre : T <+: T'
  grows : written ⊆ written'
  below : ∀ k ∈ written', k ∈ written ∨ ∃ (l : Nat) (n : OrNode), C l ∧ nodes[l]? = some n ∧ n.id = k
  ids : ∀ k ∈ T'.map OrNode.id, k ∈ T.map OrNode.id ∨ k ∈ written'
  represented : Represented nodes written' T'

theorem extends_of_pre (h : T <+: T') : Extends T T' := by
  obtain ⟨u, rfl⟩ := h
  exact fun i n hn => ⟨n, by rw [getElem?_append_left (List.getElem?_eq_some_iff.1 hn).1, hn], rfl, prefix_rfl⟩

theorem PtrMatch.mono (h : PtrMatch nodes T p p') (hext : Extends T T') : PtrMatch nodes T' p p' := by
  obtain ⟨i, n, j, hp, hn, hp', hget⟩ := h
  exact ⟨i, n, j, hp, hn, hp', hext.getORNode_eq hget⟩

theorem AltMatch.mono (h : AltMatch nodes T a b) (hext : Extends T T') : AltMatch nodes T' a b :=
  ⟨h.1, h.2.imp fun _ _ hp => hp.mono hext⟩

/-- What has been read stays, if its node gets no further alternatives. -/
theorem NodeMatch.mono (h : NodeMatch nodes T n) (hext : Extends T T')
    (hsame : ∀ j, getORNode T n.id = some j → T'[j]? = T[j]?) : NodeMatch nodes T' n := by
  obtain ⟨j, m, hget, hm, halts⟩ := h
  exact ⟨j, m, hext.getORNode_eq hget, (hsame j hget).trans hm, halts.imp fun _ _ hab => hab.mono hext⟩

variable {C D : Nat → Prop}

theorem Represented.refl_step (h : Represented nodes written T) : Step nodes C written T written T :=
  ⟨prefix_rfl, fun _ hk => hk, fun _ hk => .inl hk, fun _ hk => .inl hk, h⟩

theorem Step.trans {written1 : List Int} {T1 : List OrNode} (h1 : Step nodes C written T written1 T1)
    (h2 : Step nodes C written1 T1 written' T') : Step nodes C written T written' T' where
  pre := h1.pre.trans h2.pre
  grows _ hk := h2.grows (h1.grows hk)
  below k hk := (h2.below k hk).elim (h1.below k) .inr
  ids k hk := (h2.ids k hk).elim (fun hk => (h1.ids k hk).imp_right fun hk => h2.grows hk) .inr
  represented := h2.represented

theorem Step.mono (h : Step nodes C written T written' T') (hCD : ∀ k, C k → D k) : Step nodes D written T written' T' :=
  { h with below := fun k hk => (h.below k hk).imp_right fun ⟨l, n, hl, hn⟩ => ⟨l, n, hCD l hl, hn⟩ }

theorem Fresh.step (h : Fresh nodes C written T) (hstep : Step nodes D written T written' T') :
    Fresh nodes C written' T' := by
  intro k n hk hn hno hmem
  rcases hstep.ids n.id hmem with hold | hnew
  · exact h k n hk hn (fun hw => hno (hstep.grows hw)) hold
  · exact hno hnew

theorem Fresh.mono (h : Fresh nodes C written T) (hCD : ∀ k, D k → C k) : Fresh nodes D written T :=
  fun k n hk => h k n (hCD k hk)

/-! ## A node, and what is below it -/

/-- Writing the node at `i`, and reading what has been written. -/
def OrRun (nodes : List OrNode) (i : Nat) : Prop := ∀ written T, Represented nodes written T →
  Fresh nodes (Relation.ReflTransGen (Child nodes) i) written T →
    ∃ (N : Nat) (F : OrForm) (text : Text) (written' : List Int) (T' : List OrNode) (p' : Option Nat),
    (∀ fuel, N ≤ fuel → writeOrNode nodes fuel (some i) written = .ok (text, written')) ∧ F.Prints text ∧
      F.load T = (p', T') ∧ Step nodes (Relation.ReflTransGen (Child nodes) i) written T written' T' ∧
      PtrMatch nodes T' (some i) p'

theorem writeList_cons {α : Type} {write : α → List Int → Except Stop (Text × List Int)} {x : α} {xs : List α}
    {text rest : Text} {written1 : List Int} (hx : write x written = .ok (text, written1))
    (hxs : writeList write xs written1 = .ok (rest, written')) :
    writeList write (x :: xs) written = .ok (text ++ rest, written') := by
  simp [writeList, hx, hxs, Except.map]

theorem children_run {ps : List (Option Nat)}
    (hps : ∀ p ∈ ps, ∃ k, p = some k ∧ (∀ l, Relation.ReflTransGen (Child nodes) k l → C l) ∧ OrRun nodes k)
    (hrep : Represented nodes written T) (hfresh : Fresh nodes C written T) :
    ∃ N Fs text written' T' ps', (∀ fuel, N ≤ fuel → writeList (writeOrNode nodes fuel) ps written = .ok (text, written')) ∧
      printsChildren Fs text ∧ Fs.length = ps.length ∧ loadChildren Fs T = (ps', T') ∧
      Step nodes C written T written' T' ∧ Forall₂ (PtrMatch nodes T') ps ps' := by
  induction ps generalizing written T with
  | nil => exact ⟨0, [], [], written, T, [], fun _ _ => rfl, printsChildren_nil, rfl, rfl, hrep.refl_step, .nil⟩
  | cons p ps ih =>
    obtain ⟨k, rfl, hC, hrun⟩ := hps p mem_cons_self
    obtain ⟨N1, F, text1, written1, T1, p', hwrite, hprints, hload, hstep, hmatch⟩ := hrun written T hrep (hfresh.mono hC)
    obtain ⟨N2, Fs, text2, written', T', ps', hwrites, hprints', hlen, hloads, hsteps, hmatches⟩ :=
      ih (fun q hq => hps q (mem_cons_of_mem _ hq)) hstep.represented (hfresh.step hstep)
    refine ⟨max N1 N2, F :: Fs, text1 ++ text2, written', T', p' :: ps', ?_, printsChildren_cons hprints hprints', ?_, ?_,
      (hstep.mono hC).trans hsteps, .cons (hmatch.mono (extends_of_pre hsteps.pre)) hmatches⟩
    · intro fuel hfuel
      exact writeList_cons (hwrite fuel (le_trans (le_max_left ..) hfuel)) (hwrites fuel (le_trans (le_max_right ..) hfuel))
    · rw [length_cons, length_cons, hlen]
    · rw [loadChildren, hload]
      rw [hloads]

/-- So far the alternatives `done` of the node with this id have been read, behind `T₀`. -/
def InProgress (nodes T₀ : List OrNode) (id : Int) (done : List AndNode) (ptr : Option Nat) (T : List OrNode) : Prop :=
  T₀ <+: T ∧ ((done = [] ∧ ptr = none ∧ id ∉ T.map OrNode.id) ∨
    ∃ (q : Nat) (m : OrNode), ptr = some q ∧ T₀.length ≤ q ∧ getORNode T id = some q ∧ T[q]? = some m ∧
      Forall₂ (AltMatch nodes T) done m.alternatives)

variable {T₀ : List OrNode} {done : List AndNode} {ptr : Option Nat}

theorem InProgress.step (h : InProgress nodes T₀ id done ptr T) (hstep : Step nodes C written T written' T')
    (hno : id ∉ written') : InProgress nodes T₀ id done ptr T' := by
  refine ⟨h.1.trans hstep.pre, h.2.imp ?_ ?_⟩
  · rintro ⟨hdone, hptr, hid⟩
    exact ⟨hdone, hptr, fun hmem => (hstep.ids id hmem).elim hid hno⟩
  · rintro ⟨q, m, hptr, hq, hget, hm, halts⟩
    have hext := extends_of_pre hstep.pre
    obtain ⟨u, rfl⟩ := hstep.pre
    refine ⟨q, m, hptr, hq, hext.getORNode_eq hget, ?_, halts.imp fun _ _ hab => hab.mono hext⟩
    rw [getElem?_append_left (List.getElem?_eq_some_iff.1 hm).1, hm]

theorem prefix_modify {f : OrNode → OrNode} {q : Nat} (h : T₀ <+: T) (hq : T₀.length ≤ q) : T₀ <+: T.modify q f := by
  rw [prefix_iff_getElem?]
  intro k hk
  have hne : q ≠ k := by omega
  simpa [hne] using prefix_iff_getElem?.1 h k hk

theorem InProgress.add (h : InProgress nodes T₀ id done ptr T) (hab : AltMatch nodes T a b) :
    InProgress nodes T₀ id (done ++ [a]) (some (addNodeById T b id).1) (addNodeById T b id).2 := by
  obtain ⟨hext, hget', -, -⟩ := addNodeById_spec T b id
  rcases h.2 with ⟨rfl, -, hno⟩ | ⟨q, m, -, hq, hget, hm, halts⟩
  · have hnone := getORNode_eq_none.2 hno
    have hadd : addNodeById T b id = (T.length, T ++ [⟨id, [b]⟩]) := by rw [addNodeById, hnone]
    rw [hadd] at hext hget' ⊢
    exact ⟨h.1.trans (prefix_append _ _), .inr ⟨T.length, ⟨id, [b]⟩, rfl, h.1.length_le, hget', by simp,
      .cons (hab.mono hext) .nil⟩⟩
  · have hadd : addNodeById T b id = (q, T.modify q (OrNode.pushBack b)) := by rw [addNodeById, hget]
    rw [hadd] at hext hget' ⊢
    refine ⟨?_, .inr ⟨q, m.pushBack b, rfl, hq, hget', by simp [hm], ?_⟩⟩
    · exact prefix_modify h.1 hq
    · exact rel_append (halts.imp fun _ _ h => h.mono hext) (.cons (hab.mono hext) .nil)

theorem Represented.add (h : Represented nodes written T) (hno : id ∉ written) (b : AndNode) :
    Represented nodes written (addNodeById T b id).2 := by
  obtain ⟨hext, -, -, -⟩ := addNodeById_spec T b id
  intro i n hn hmem
  refine (h i n hn hmem).mono hext fun j hj => ?_
  have hlt := getORNode_lt hj
  cases hget : getORNode T id with
  | none => rw [addNodeById, hget, getElem?_append_left hlt]
  | some q =>
    have hne : q ≠ j := by
      rintro rfl
      obtain ⟨⟨m, hm, hid⟩, -⟩ := getORNode_eq_some.1 hget
      obtain ⟨⟨m', hm', hid'⟩, -⟩ := getORNode_eq_some.1 hj
      obtain rfl : m = m' := Option.mem_unique hm hm'
      exact hno (hid ▸ hid' ▸ hmem)
    rw [addNodeById, hget]
    simp [hne]

/-! ## The alternatives of a node -/

variable {write : Option Nat → List Int → Except Stop (Text × List Int)}

theorem writeAndNode_leaf (h : a.children = []) :
    writeAndNode write a written = .ok (' ' :: escape a.label, written) := if_pos h

theorem writeAndNode_node (h : a.children ≠ [])
    (hrun : writeList write a.children written = .ok (t, written')) :
    writeAndNode write a written = .ok (' ' :: '(' :: (a.label ++ ' ' :: (t ++ [')'])), written') := by
  rw [writeAndNode, if_neg h, hrun]
  rfl

/-- The ids that are there when the node has got another alternative. -/
theorem ids_add (h : ∀ k ∈ T'.map OrNode.id, k = id ∨ k ∈ T.map OrNode.id ∨ k ∈ written) (b : AndNode) :
    ∀ k ∈ (addNodeById T' b id).2.map OrNode.id, k = id ∨ k ∈ T.map OrNode.id ∨ k ∈ written :=
  fun k hk => (((addNodeById_spec T' b id).2.2.2 k).1 hk).elim .inl (h k)

theorem Fresh.add (h : Fresh nodes C written T) (hid : ∀ (k : Nat) (n : OrNode), C k → nodes[k]? = some n → n.id ≠ id)
    (b : AndNode) : Fresh nodes C written (addNodeById T b id).2 := by
  intro k n hk hn hno hmem
  rcases ((addNodeById_spec T b id).2.2.2 n.id).1 hmem with heq | hmem
  · exact hid k n hk hn heq
  · exact h k n hk hn hno hmem

/-- What has been read when the alternatives `as` of a node follow `done`. -/
structure Loaded (nodes : List OrNode) (C : Nat → Prop) (T₀ : List OrNode) (id : Int) (written : List Int)
    (T : List OrNode) (all : List AndNode) (written' : List Int) (ptr' : Option Nat) (T' : List OrNode) : Prop where
  inProgress : InProgress nodes T₀ id all ptr' T'
  grows : written ⊆ written'
  below : ∀ k ∈ written', k ∈ written ∨ ∃ (l : Nat) (n : OrNode), C l ∧ nodes[l]? = some n ∧ n.id = k
  ids : ∀ k ∈ T'.map OrNode.id, k = id ∨ k ∈ T.map OrNode.id ∨ k ∈ written'
  represented : Represented nodes written' T'

theorem alternatives_run (hC : ∀ (k : Nat) (n : OrNode), C k → nodes[k]? = some n → n.id ≠ id) {as : List AndNode}
    (hwords : ∀ a ∈ as, IsWord a.label) (halone : ∀ a ∈ as, a.children = [] → done ++ as = [a])
    (hps : ∀ a ∈ as, ∀ p ∈ a.children, ∃ k, p = some k ∧ (∀ l, Relation.ReflTransGen (Child nodes) k l → C l) ∧ OrRun nodes k)
    (hin : InProgress nodes T₀ id done ptr T) (hrep : Represented nodes written T) (hfresh : Fresh nodes C written T)
    (hno : id ∉ written) :
    ∃ (N : Nat) (As : List AndForm) (text : Text) (written' : List Int) (T' : List OrNode) (ptr' : Option Nat),
      (∀ fuel, N ≤ fuel → writeList (writeAndNode (writeOrNode nodes fuel)) as written = .ok (text, written')) ∧
      printsAlternatives As text ∧ As.length = as.length ∧ loadAlternatives id ptr As T = (ptr', T') ∧
      Loaded nodes C T₀ id written T (done ++ as) written' ptr' T' := by
  induction as generalizing done ptr written T with
  | nil =>
    exact ⟨0, [], [], written, T, ptr, fun _ _ => rfl, printsAlternatives_nil, rfl, rfl,
      ⟨by rwa [append_nil], fun _ hk => hk, fun _ hk => .inl hk, fun _ hk => .inr (.inl hk), hrep⟩⟩
  | cons a as ih =>
    by_cases hleaf : a.children = []
    · -- a leaf stands alone
      obtain ⟨rfl, rfl⟩ : done = [] ∧ as = [] := by
        have hlen := congrArg List.length (halone a mem_cons_self hleaf)
        simp only [length_append, length_cons, length_nil] at hlen
        exact ⟨length_eq_zero_iff.1 (by omega), length_eq_zero_iff.1 (by omega)⟩
      have hab : AltMatch nodes T a ⟨unescape (escape a.label), false, (-1, -1), []⟩ :=
        ⟨by rw [readLabel, if_pos hleaf], by rw [hleaf]; exact .nil⟩
      refine ⟨0, [.leaf (escape a.label)], ' ' :: escape a.label, written, _, _, fun fuel _ => ?_,
        printsAlternatives_leaf (isWord_escape (hwords a mem_cons_self)) (notMem_escape_left _)
          (notMem_escape_right _), rfl, rfl, ⟨hin.add hab, fun _ hk => hk, fun _ hk => .inl hk,
          ids_add (fun _ hk => .inr (.inl hk)) _, hrep.add hno _⟩⟩
      rw [writeList, writeAndNode_leaf hleaf]
      simp [writeList, Except.map]
    · obtain ⟨N1, Fs, text1, written1, T1, ps', hwrite, hprints, hlen, hload, hstep, hmatch⟩ :=
        children_run (hps a mem_cons_self) hrep hfresh
      have hno1 : id ∉ written1 := by
        intro hmem
        rcases hstep.below id hmem with hold | ⟨l, n, hl, hn, hid⟩
        · exact hno hold
        · exact hC l n hl hn hid
      have hab : AltMatch nodes T1 a ⟨a.label, true, (-1, -1), ps'⟩ := ⟨by rw [readLabel, if_neg hleaf], hmatch⟩
      obtain ⟨N2, As, text2, written', T', ptr', hwrites, hprints', hlen', hloads, hloaded⟩ :=
        ih (fun b hb => hwords b (mem_cons_of_mem a hb))
          (fun b hb h => by rw [append_assoc]; exact halone b (mem_cons_of_mem a hb) h)
          (fun b hb => hps b (mem_cons_of_mem a hb)) ((hin.step hstep hno1).add hab)
          (hstep.represented.add hno1 _) ((hfresh.step hstep).add hC _) hno1
      have hne : Fs ≠ [] := by
        rintro rfl
        exact hleaf (length_eq_zero_iff.1 hlen.symm)
      refine ⟨max N1 N2, .node a.label Fs :: As, _, written', T', ptr', fun fuel hfuel => writeList_cons
        (writeAndNode_node hleaf (hwrite fuel (le_trans (le_max_left ..) hfuel)))
        (hwrites fuel (le_trans (le_max_right ..) hfuel)),
        printsAlternatives_node (hwords a mem_cons_self) hprints hne hprints', by simp [hlen'], ?_, ?_⟩
      · rw [loadAlternatives, AndForm.load, hload]
        exact hloads
      · have hinAll := hloaded.inProgress
        rw [append_assoc] at hinAll
        refine ⟨hinAll, fun k hk => hloaded.grows (hstep.grows hk),
          fun k hk => (hloaded.below k hk).elim (hstep.below k) .inr, fun k hk => ?_, hloaded.represented⟩
        rcases hloaded.ids k hk with hid | hmem | hnew
        · exact .inl hid
        · rcases ((addNodeById_spec T1 ⟨a.label, true, (-1, -1), ps'⟩ id).2.2.2 k).1 hmem with hid | hmem
          · exact .inl hid
          · exact .inr ((hstep.ids k hmem).imp_right fun hk => hloaded.grows hk)
        · exact .inr (.inr hnew)

/-! ## Every node -/

section Nodes

variable {f : PackedForest}

theorem Printable.index_unique (hf : Printable f) {k : Nat} (hn : f.nodes[i]? = some n) (hm : f.nodes[k]? = some m)
    (hid : m.id = n.id) : k = i := by
  have hk := (List.getElem?_eq_some_iff.1 hm).1
  have hids : (f.nodes.map OrNode.id)[k]? = (f.nodes.map OrNode.id)[i]? := by
    rw [getElem?_map, getElem?_map, hm, hn, Option.map_some, Option.map_some, hid]
  exact (getElem?_inj (by simpa using hk) hf.ids).1 hids

theorem Printable.child_lt (hf : Printable f) (h : Child f.nodes i j) : j < f.nodes.length := by
  obtain ⟨n, a, hn, ha, hj⟩ := h
  obtain ⟨k, hk, hlt⟩ := hf.pointers n (mem_of_getElem? hn) a ha _ hj
  obtain rfl : j = k := Option.some.inj hk
  exact hlt

open Classical in
/-- Fewer nodes are below a child. -/
theorem Printable.child_wellFounded (hf : Printable f) : WellFounded fun j i => Child f.nodes i j := by
  let rank : Nat → Nat := fun i => ((Finset.range f.nodes.length).filter (Relation.TransGen (Child f.nodes) i)).card
  refine Subrelation.wf (r := fun j i => rank j < rank i) ?_ (measure rank).wf
  intro j i hchild
  refine Finset.card_lt_card ((Finset.ssubset_iff_of_subset ?_).2 ⟨j, ?_, ?_⟩)
  · intro k hk
    obtain ⟨hmem, hbelow⟩ := Finset.mem_filter.1 hk
    exact Finset.mem_filter.2 ⟨hmem, .head hchild hbelow⟩
  · exact Finset.mem_filter.2 ⟨Finset.mem_range.2 (hf.child_lt hchild), .single hchild⟩
  · exact fun hmem => hf.acyclic j (Finset.mem_filter.1 hmem).2

/-- **A node that stands in full or as a reference is read as the node it is.** -/
theorem Printable.orRun (hf : Printable f) {i : Nat} (hi : i < f.nodes.length)
    (hne : ∀ k, Relation.ReflTransGen (Child f.nodes) i k → ∀ n, f.nodes[k]? = some n → n.alternatives ≠ []) :
    OrRun f.nodes i := by
  induction i using hf.child_wellFounded.induction with
  | _ i ih =>
    intro written T hrep hfresh
    have hn := getElem?_eq_getElem hi
    generalize f.nodes[i] = n at hn
    have hmem := mem_of_getElem? hn
    by_cases hw : n.id ∈ written
    · obtain ⟨j, m, hget, -, -⟩ := hrep i n hn hw
      refine ⟨1, .ref n.id, orText n.id [], written, T, some j, ?_, prints_ref (hf.range n hmem), ?_, hrep.refl_step,
        ⟨i, n, j, rfl, hn, rfl, hget⟩⟩
      · rintro (_ | fuel) hfuel
        · exact absurd hfuel (by decide)
        · rw [writeOrNode, Option.bind_some, hn]
          exact if_pos hw
      · rw [OrForm.load, hget]
    · have halts := hne i .refl n hn
      have hbelow : ∀ (k : Nat) (m : OrNode), Relation.TransGen (Child f.nodes) i k → f.nodes[k]? = some m →
          m.id ≠ n.id := by
        intro k m hk hm hid
        obtain rfl := hf.index_unique hn hm hid
        exact hf.acyclic k hk
      have hchildren : ∀ a ∈ n.alternatives, ∀ p ∈ a.children, ∃ k, p = some k ∧
          (∀ l, Relation.ReflTransGen (Child f.nodes) k l → Relation.TransGen (Child f.nodes) i l) ∧
          OrRun f.nodes k := by
        intro a ha p hp
        obtain ⟨k, rfl, hk⟩ := hf.pointers n hmem a ha p hp
        have hchild : Child f.nodes i k := ⟨n, a, hn, ha, hp⟩
        exact ⟨k, rfl, fun l hl => .head' hchild hl, ih k hchild hk fun l hl => hne l (.head hchild hl)⟩
      obtain ⟨N, As, text, written', T', ptr', hwrite, hprints, hlen, hload, hloaded⟩ :=
        alternatives_run hbelow (fun a ha => hf.labels n hmem a ha) (fun a ha h => (nil_append _).trans (hf.alone n hmem a ha h))
          hchildren
          ⟨prefix_rfl, .inl ⟨rfl, rfl, hfresh i n .refl hn hw⟩⟩ hrep
          (hfresh.mono fun k hk => hk.to_reflTransGen) hw
      obtain ⟨q, m, rfl, -, hget, hm, hmatch⟩ := hloaded.inProgress.2.resolve_left fun h => halts h.1
      have hAs : As ≠ [] := by
        rintro rfl
        exact halts (length_eq_zero_iff.1 hlen.symm)
      refine ⟨N + 1, .node n.id As, orText n.id text, n.id :: written', T', some q, ?_,
        prints_node (hf.range n hmem) hAs hprints, hload, ?_, ⟨i, n, q, rfl, hn, rfl, hget⟩⟩
      · rintro (_ | fuel) hfuel
        · exact absurd hfuel (Nat.not_succ_le_zero N)
        · rw [writeOrNode, Option.bind_some, hn]
          dsimp only
          rw [if_neg hw, hwrite fuel (Nat.le_of_succ_le_succ hfuel)]
          rfl
      · refine ⟨hloaded.inProgress.1, fun k hk => mem_cons_of_mem _ (hloaded.grows hk), fun k hk => ?_,
          fun k hk => ?_, fun l m' hm' hmem' => ?_⟩
        · rcases mem_cons.1 hk with rfl | hk
          · exact .inr ⟨i, n, .refl, hn, rfl⟩
          · exact (hloaded.below k hk).imp_right fun ⟨l, m, hl, hm⟩ => ⟨l, m, hl.to_reflTransGen, hm⟩
        · rcases hloaded.ids k hk with rfl | hold | hnew
          · exact .inr mem_cons_self
          · exact .inl hold
          · exact .inr (mem_cons_of_mem _ hnew)
        · rcases mem_cons.1 hmem' with hid | hmem'
          · obtain rfl := hf.index_unique hn hm' hid
            obtain rfl : n = m' := Option.mem_unique hn hm'
            exact ⟨q, m, hget, hm, hmatch⟩
          · exact hloaded.represented l m' hm' hmem'

end Nodes

/-! ## No id is read twice -/

theorem nodup_addNodeById (h : (T.map OrNode.id).Nodup) (b : AndNode) (id : Int) :
    ((addNodeById T b id).2.map OrNode.id).Nodup := by
  cases hget : getORNode T id with
  | some q =>
    have hids : (T.modify q (OrNode.pushBack b)).map OrNode.id = T.map OrNode.id := by
      apply ext_getElem?
      intro j
      simp only [getElem?_map, getElem?_modify]
      cases T[j]? with
      | none => rfl
      | some m => by_cases hqj : q = j <;> simp [hqj, OrNode.pushBack]
    rw [addNodeById, hget]
    rwa [hids]
  | none =>
    rw [addNodeById, hget]
    simp only [map_append, map_cons, map_nil]
    exact h.append (nodup_singleton id) fun k hk hk' => by
      obtain rfl := mem_singleton.1 hk'
      exact getORNode_eq_none.1 hget hk

mutual

theorem OrForm.load_nodup : (F : OrForm) → {T : List OrNode} → (T.map OrNode.id).Nodup →
    ((F.load T).2.map OrNode.id).Nodup
  | .ref _, _, h => h
  | .node id as, _, h => loadAlternatives_nodup id none as h

theorem AndForm.load_nodup : (A : AndForm) → {T : List OrNode} → (T.map OrNode.id).Nodup →
    ((A.load T).2.map OrNode.id).Nodup
  | .leaf _, _, h => h
  | .node _ cs, _, h => loadChildren_nodup cs h

theorem loadAlternatives_nodup (id : Int) (p : Option Nat) : (as : List AndForm) → {T : List OrNode} →
    (T.map OrNode.id).Nodup → ((loadAlternatives id p as T).2.map OrNode.id).Nodup
  | [], _, h => h
  | A :: as, _, h => loadAlternatives_nodup id _ as (nodup_addNodeById (A.load_nodup h) _ id)

theorem loadChildren_nodup : (cs : List OrForm) → {T : List OrNode} → (T.map OrNode.id).Nodup →
    ((loadChildren cs T).2.map OrNode.id).Nodup
  | [], _, h => h
  | F :: cs, _, h => loadChildren_nodup cs (F.load_nodup h)

end

theorem getORNode_of_nodup (h : (T.map OrNode.id).Nodup) (hm : T[j]? = some m) : getORNode T m.id = some j := by
  refine getORNode_eq_some.2 ⟨⟨m, hm, rfl⟩, fun k hk m' hm' hid => ?_⟩
  have hids : (T.map OrNode.id)[k]? = (T.map OrNode.id)[j]? := by
    rw [getElem?_map, getElem?_map, hm, hm', Option.map_some, Option.map_some, hid]
  have hlt := (List.getElem?_eq_some_iff.1 hm').1
  exact absurd ((getElem?_inj (by simpa using hlt) h).1 hids) (Nat.ne_of_lt hk)

/-! ## The whole round -/

section Round

variable {f g : PackedForest}

/-- The nodes of `f` that can be reached have been read into `T`, and nothing else has. -/
structure Read (f : PackedForest) (r : Nat) (written : List Int) (T : List OrNode) (q : Nat) : Prop where
  represented : Represented f.nodes written T
  nodup : (T.map OrNode.id).Nodup
  ids : ∀ k ∈ T.map OrNode.id, k ∈ written
  below : ∀ k ∈ written, ∃ (l : Nat) (n : OrNode), Relation.ReflTransGen (Child f.nodes) r l ∧
    f.nodes[l]? = some n ∧ n.id = k
  root : PtrMatch f.nodes T (some r) (some q)

theorem PtrMatch.mem (h : PtrMatch nodes T (some i) p') (hn : nodes[i]? = some n) :
    ∃ j, p' = some j ∧ getORNode T n.id = some j ∧ n.id ∈ T.map OrNode.id := by
  obtain ⟨i', n', j, hi, hn', hj, hget⟩ := h
  obtain rfl : i = i' := Option.some.inj hi
  obtain rfl : n = n' := Option.mem_unique hn hn'
  obtain ⟨⟨m, hm, hid⟩, -⟩ := getORNode_eq_some.1 hget
  exact ⟨j, hj, hget, hid ▸ mem_map_of_mem (mem_of_getElem? hm)⟩

/-- Every node that has been read is one of the forest. -/
theorem Read.node {r q : Nat} (h : Read f r written T q) (hm : T[j]? = some m) :
    ∃ (l : Nat) (n : OrNode), Relation.ReflTransGen (Child f.nodes) r l ∧ f.nodes[l]? = some n ∧ n.id = m.id ∧
      Forall₂ (AltMatch f.nodes T) n.alternatives m.alternatives := by
  have hmem := h.ids m.id (mem_map_of_mem (mem_of_getElem? hm))
  obtain ⟨l, n, hl, hn, hid⟩ := h.below m.id hmem
  obtain ⟨j', m', hget, hm', halts⟩ := h.represented l n hn (hid ▸ hmem)
  obtain rfl : j' = j := by
    rw [hid, getORNode_of_nodup h.nodup hm] at hget
    exact (Option.some.inj hget).symm
  obtain rfl : m = m' := Option.mem_unique hm hm'
  exact ⟨l, n, hl, hn, hid, halts⟩

theorem Read.closed {r q : Nat} (h : Read f r written T q)
    (hne : ∀ k, Relation.ReflTransGen (Child f.nodes) r k → ∀ n, f.nodes[k]? = some n → n.alternatives ≠ []) :
    Closed T (· < T.length) := by
  intro j hj
  obtain ⟨l, n, hl, hn, -, halts⟩ := h.node (getElem?_eq_getElem hj)
  refine ⟨(T[j]).alternatives.length, by simp [count, hj], ?_, ?_⟩
  · rw [← halts.length_eq]
    exact length_pos_iff.2 (hne l hl n hn)
  · intro k hk cs hcs p hp
    have hkids : kids T (j, k) = some ((T[j]).alternatives[k]).children := by simp [kids, andNode?, hj, hk]
    obtain rfl := Option.mem_unique hkids hcs
    obtain ⟨a, -, hab⟩ := exists_of_mem_right halts (getElem_mem hk)
    obtain ⟨p', -, i, n', j', -, -, rfl, hget⟩ := exists_of_mem_right hab.2 hp
    exact ⟨j', rfl, getORNode_lt hget⟩

theorem reachable_iff {r : Nat} (hroot : f.root = some r) {k : Nat} :
    Reachable f (some k) ↔ Relation.ReflTransGen (Child f.nodes) r k := by
  constructor
  · intro h
    generalize hp : some k = p at h
    induction h generalizing k with
    | root =>
      obtain rfl : k = r := Option.some.inj (hp.trans hroot)
      exact .refl
    | @child i n a p _ hn ha hmem ih => exact .tail (ih rfl) ⟨n, a, hn, ha, hp ▸ hmem⟩
  · intro h
    induction h with
    | refl => exact hroot ▸ .root
    | tail _ hchild ih =>
      obtain ⟨n, a, hn, ha, hl⟩ := hchild
      exact .child ih hn ha hl

/-- With enough fuel the text of a forest without empty OR nodes is read into its nodes. -/
theorem Printable.put_get (junk : Junk) (hf : Printable f) {r : Nat} (hroot : f.root = some r)
    (hne : ∀ k, Relation.ReflTransGen (Child f.nodes) r k → ∀ n, f.nodes[k]? = some n → n.alternatives ≠ []) :
    ∃ N text written T q, Read f r written T q ∧ ∀ fuel, N ≤ fuel → put fuel f = .ok text ∧
      ∃ nodes', get junk fuel .empty text = .ok ⟨nodes', some q⟩ ∧ bareNodes nodes' = bareNodes T := by
  obtain ⟨N, F, text, written, T, p', hwrite, ⟨⟨u, rfl⟩, hspells⟩, hload, hstep, hptr⟩ :=
    hf.orRun (hf.root r hroot) hne [] [] (fun _ _ _ h => nomatch h) (fun _ _ _ _ _ h => nomatch h)
  obtain ⟨q, rfl, -, -⟩ := hptr.mem (getElem?_eq_getElem (hf.root r hroot))
  have hread : Read f r written T q := by
    refine ⟨hstep.represented, ?_, fun k hk => (hstep.ids k hk).resolve_left nofun,
      fun k hk => (hstep.below k hk).resolve_left nofun, hptr⟩
    have hnodup := F.load_nodup (T := []) nodup_nil
    rwa [hload] at hnodup
  have htext : F.Spells (' ' :: '(' :: u) [] := append_nil (' ' :: '(' :: u) ▸ hspells []
  have hq : q < T.length := by
    obtain ⟨i, n, j, -, -, hj, hget⟩ := hptr
    exact Option.some.inj hj ▸ getORNode_lt hget
  have hdef : F.Defined [] := F.defined_of_closed (hread.closed hne) (by rw [hload]; exact .refl T) (fun _ => Iff.rfl)
    ⟨q, by rw [hload], hq⟩
  obtain ⟨M, hM⟩ := get_of_spells htext hdef (by simp)
  refine ⟨max N M, ' ' :: '(' :: u, written, T, q, hread, fun fuel hfuel => ⟨?_, ?_⟩⟩
  · rw [put, hroot]
    dsimp only
    rw [hwrite fuel (le_trans (le_max_left ..) hfuel)]
    rfl
  · obtain ⟨nodes', hget, hbare, -⟩ := hM fuel (le_trans (le_max_right ..) hfuel)
    rw [hload] at hget hbare
    exact ⟨nodes', hget, hbare⟩

/-- No word of a leaf that is written has two patterns that overlap, and no OR node is empty. -/
def Restorable (f : PackedForest) : Prop := ∀ i, Reachable f (some i) → ∀ n, f.nodes[i]? = some n →
  n.alternatives ≠ [] ∧ ∀ a ∈ n.alternatives, a.children = [] → ∀ p ∈ overlaps, ¬ p <:+: a.label

theorem Printable.readLabel_eq_iff (hf : Printable f) (hn : n ∈ f.nodes) (ha : a ∈ n.alternatives) :
    readLabel a = a.label ↔ (a.children = [] → ∀ p ∈ overlaps, ¬ p <:+: a.label) := by
  by_cases hleaf : a.children = []
  · obtain ⟨hr, hl⟩ := hf.words n hn a ha hleaf
    rw [readLabel, if_pos hleaf, unescape_escape_iff hr hl]
    exact ⟨fun h _ => h, fun h => h hleaf⟩
  · rw [readLabel, if_neg hleaf]
    exact ⟨fun _ h => absurd h hleaf, fun _ => rfl⟩

/-- Spans do not matter for what has been read. -/
theorem altMatch_bare {m' : OrNode} (hbare : m'.bare = m.bare)
    (h : Forall₂ (AltMatch nodes T) n.alternatives m.alternatives) :
    Forall₂ (AltMatch nodes T) n.alternatives m'.alternatives := by
  have hmap : Forall₂ (AltMatch nodes T) n.alternatives (m.alternatives.map AndNode.bare) :=
    List.forall₂_map_right_iff.2 h
  rw [← alternatives_bare hbare] at hmap
  have hback := List.forall₂_map_right_iff.1 hmap
  exact hback

/-- Nodes are corresponding that have the same id. -/
theorem Read.isomorphism {r q : Nat} (h : Read f r written T q) (hf : Printable f) (hroot : f.root = some r)
    (hclean : ∀ k, Relation.ReflTransGen (Child f.nodes) r k → ∀ n, f.nodes[k]? = some n →
      ∀ a ∈ n.alternatives, readLabel a = a.label) (hbare : bareNodes nodes = bareNodes T) :
    Isomorphism f ⟨nodes, some q⟩ fun i j => ∃ n, f.nodes[i]? = some n ∧ getORNode T n.id = some j := by
  have hrel : ∀ p p', PtrMatch f.nodes T p p' →
      Option.Rel (fun i j => ∃ n, f.nodes[i]? = some n ∧ getORNode T n.id = some j) p p' := by
    rintro p p' ⟨i, n, j, rfl, hn, rfl, hget⟩
    exact .some ⟨n, hn, hget⟩
  refine ⟨hroot ▸ hrel _ _ h.root, ?_, ?_⟩
  · rintro i j ⟨n, hn, hget⟩
    obtain ⟨⟨m, hm, hid⟩, -⟩ := getORNode_eq_some.1 hget
    obtain ⟨l, n', hl, hn', hid', halts⟩ := h.node hm
    obtain rfl := hf.index_unique hn hn' (hid'.trans hid)
    obtain rfl : n = n' := Option.mem_unique hn hn'
    obtain ⟨m', hm', hmm'⟩ := exists_of_bareNodes hbare.symm hm
    refine ⟨n, m', hn, hm', hid.symm.trans (congrArg OrNode.id hmm').symm, ?_⟩
    refine forall₂_imp_of_mem (altMatch_bare hmm' halts) fun a ha b hab => ?_
    exact ⟨(hclean _ hl n hn a ha).symm.trans hab.1.symm, hab.2.imp hrel⟩
  · rintro i j i' j' ⟨n, hn, hget⟩ ⟨n', hn', hget'⟩
    constructor
    · rintro rfl
      obtain rfl : n = n' := Option.mem_unique hn hn'
      exact Option.mem_unique hget hget'
    · rintro rfl
      obtain ⟨⟨m, hm, hid⟩, -⟩ := getORNode_eq_some.1 hget
      obtain ⟨⟨m', hm', hid'⟩, -⟩ := getORNode_eq_some.1 hget'
      obtain rfl : m = m' := Option.mem_unique hm hm'
      exact hf.index_unique hn' hn (hid.symm.trans hid')

theorem isomorphism_none (hroot : f.root = none) (hg : g.root = none) : Isomorphism f g fun _ _ => False :=
  ⟨by rw [hroot, hg]; exact .none, nofun, nofun⟩

/-- Whatever can be reached in one forest has its counterpart in the other. -/
theorem Isomorphism.reach {R : Nat → Nat → Prop} (h : Isomorphism f g R) {i : Nat} (hi : Reachable f (some i)) :
    ∃ j, R i j ∧ Reachable g (some j) := by
  generalize hp : some i = p at hi
  induction hi generalizing i with
  | root =>
    have hroot := h.root
    rw [← hp] at hroot
    cases hg : g.root with
    | none =>
      rw [hg] at hroot
      cases hroot
    | some j =>
      rw [hg] at hroot
      cases hroot with
      | some hR => exact ⟨j, hR, hg ▸ .root⟩
  | @child k n a p _ hn ha hmem ih =>
    subst hp
    obtain ⟨l, hR, hl⟩ := ih rfl
    obtain ⟨n', m, hn', hm, -, halts⟩ := h.node k l hR
    obtain rfl : n = n' := Option.mem_unique hn hn'
    obtain ⟨b, hb, -, hchildren⟩ := exists_of_mem_left halts ha
    obtain ⟨p', hp', hptr⟩ := exists_of_mem_left hchildren hmem
    cases hptr with
    | some hR' => exact ⟨_, hR', .child hl hm hb hp'⟩

theorem put_none (h : f.root = none) (fuel : Nat) : put fuel f = .ok ['0', '\n'] := by rw [put, h]

theorem not_reachable_none (h : f.root = none) (i : Nat) : ¬ Reachable f (some i) := by
  intro hi
  generalize hp : some i = p at hi
  induction hi generalizing i with
  | root =>
    rw [h] at hp
    cases hp
  | child _ _ _ _ ih => exact ih _ rfl

theorem roundTrips_of_restorable {junk : Junk} (hf : Printable f) (h : Restorable f) : RoundTrips junk f := by
  cases hroot : f.root with
  | none => exact ⟨0, fun fuel _ => ⟨_, ⟨[], none⟩, _, put_none hroot fuel, rfl, isomorphism_none hroot rfl⟩⟩
  | some r =>
    have hne : ∀ k, Relation.ReflTransGen (Child f.nodes) r k → ∀ n, f.nodes[k]? = some n → n.alternatives ≠ [] :=
      fun k hk n hn => (h k ((reachable_iff hroot).2 hk) n hn).1
    obtain ⟨N, text, written, T, q, hread, hrun⟩ := hf.put_get junk hroot hne
    refine ⟨N, fun fuel hfuel => ?_⟩
    obtain ⟨hput, nodes', hget, hbare⟩ := hrun fuel hfuel
    refine ⟨text, _, _, hput, hget, hread.isomorphism hf hroot ?_ hbare⟩
    intro k hk n hn a ha
    exact (hf.readLabel_eq_iff (mem_of_getElem? hn) ha).2 ((h k ((reachable_iff hroot).2 hk) n hn).2 a ha)

/-- A forest that is read has no empty OR nodes. -/
theorem Isomorphism.nonempty {R : Nat → Nat → Prop} {junk : Junk} {fuel : Nat} {text : Text} (h : Isomorphism f g R)
    (hget : get junk fuel .empty text = .ok g) {i : Nat} (hi : Reachable f (some i)) (hn : f.nodes[i]? = some n) :
    n.alternatives ≠ [] := by
  obtain ⟨j, hR, hj⟩ := h.reach hi
  obtain ⟨n', m, hn', hm, -, halts⟩ := h.node i j hR
  obtain rfl : n = n' := Option.mem_unique hn hn'
  have hg : g.root ≠ none := fun hnone => not_reachable_none hnone j hj
  rcases get_inv hget with ⟨hnone, -⟩ | ⟨-, -, -, -, -, -, hsound⟩
  · exact absurd hnone hg
  · obtain ⟨j', m', hj', hm', hnil⟩ := hsound.resolve_left hg _ hj
    obtain rfl : j = j' := Option.some.inj hj'
    obtain rfl : m = m' := Option.mem_unique hm hm'
    exact ne_nil_of_length_pos (halts.length_eq ▸ length_pos_iff.2 hnil)

theorem restorable_of_roundTrips {junk : Junk} (hf : Printable f) (h : RoundTrips junk f) : Restorable f := by
  obtain ⟨M, hM⟩ := h
  cases hroot : f.root with
  | none => exact fun i hi => absurd hi (not_reachable_none hroot i)
  | some r =>
    have hne : ∀ k, Relation.ReflTransGen (Child f.nodes) r k → ∀ n, f.nodes[k]? = some n → n.alternatives ≠ [] := by
      obtain ⟨text, g, R, -, hget, hiso⟩ := hM M (Nat.le_refl M)
      exact fun k hk n hn => hiso.nonempty hget ((reachable_iff hroot).2 hk) hn
    obtain ⟨N, text, written, T, q, hread, hrun⟩ := hf.put_get junk hroot hne
    obtain ⟨text', g, R, hput', hget', hiso⟩ := hM (max M N) (le_max_left ..)
    obtain ⟨hput, nodes', hget, hbare⟩ := hrun (max M N) (le_max_right ..)
    obtain rfl := Except.ok.inj (hput.symm.trans hput')
    obtain rfl := Except.ok.inj (hget.symm.trans hget')
    intro i hi n hn
    refine ⟨hne i ((reachable_iff hroot).1 hi) n hn, fun a ha => ?_⟩
    rw [← hf.readLabel_eq_iff (mem_of_getElem? hn) ha]
    obtain ⟨j, hR, -⟩ := hiso.reach hi
    obtain ⟨n', m', hn', hm', hid', hlabels⟩ := hiso.node i j hR
    obtain rfl : n = n' := Option.mem_unique hn hn'
    obtain ⟨m, hm, hmm'⟩ := exists_of_bareNodes hbare hm'
    obtain ⟨l, n0, hl, hn0, hid, halts⟩ := hread.node hm
    have hids : n0.id = n.id := hid.trans ((congrArg OrNode.id hmm').trans hid'.symm)
    obtain rfl := hf.index_unique hn hn0 hids
    obtain rfl : n = n0 := Option.mem_unique hn hn0
    obtain ⟨b, -, hab, hab'⟩ := exists_of_mem_both hlabels (altMatch_bare hmm'.symm halts) ha
    exact hab'.1.symm.trans hab.1.symm

/-- Pointers that only lead to nodes that follow lead to no cycle. -/
theorem acyclic_of_lt (h : ∀ x ∈ nodes.zipIdx, ∀ a ∈ x.1.alternatives, ∀ p ∈ a.children, ∀ j ∈ p, x.2 < j) (i : Nat) :
    ¬ Relation.TransGen (Child nodes) i i := by
  have hchild : ∀ {k l}, Child nodes k l → k < l := by
    rintro k l ⟨n, a, hn, ha, hl⟩
    exact h (n, k) (mem_zipIdx_iff_getElem?.2 hn) a ha _ hl l rfl
  have hlt : ∀ {k l}, Relation.TransGen (Child nodes) k l → k < l := by
    intro k l hkl
    induction hkl with
    | single h => exact hchild h
    | tail _ h ih => exact ih.trans (hchild h)
  exact fun hi => Nat.lt_irrefl i (hlt hi)

/-- `(S (#2 (a)) (B (#2)))`, its leaf with parentheses. -/
def shared : PackedForest where
  nodes := [⟨1, [⟨['S'], true, (-1, -1), [some 2, some 1]⟩]⟩, ⟨3, [⟨['B'], true, (-1, -1), [some 2]⟩]⟩,
    ⟨2, [⟨['(', 'a', ')'], false, (-1, -1), []⟩]⟩]
  root := some 0

theorem printable_shared : Printable shared where
  root := by decide
  pointers := by decide
  acyclic := acyclic_of_lt (by decide)
  ids := by decide
  range := by decide
  labels := by simp [shared, IsWord, isSpace]
  words := by decide
  alone := by decide

/-- A word that ends in a parenthesis behind `-RRB`. -/
def overlapping : PackedForest where
  nodes := [⟨1, [⟨['-', 'R', 'R', 'B', ')'], false, (-1, -1), []⟩]⟩]
  root := some 0

theorem printable_overlapping : Printable overlapping where
  root := by decide
  pointers := by decide
  acyclic := acyclic_of_lt (by decide)
  ids := by decide
  range := by decide
  labels := by simp [overlapping, IsWord, isSpace]
  words := by decide
  alone := by decide

end Round

end Sbmt.Ghkm.ForestText
