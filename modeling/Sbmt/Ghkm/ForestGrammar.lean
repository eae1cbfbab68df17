import Sbmt.Ghkm.ForestText

/-!
# What the readers of a packed forest accept (`PackedForest.C:151-265`)

The readers do not look at the nodes to find their way through a text, so a text has a form (`OrForm.Spells`) or not,
and a form is loaded into the nodes afterwards (`OrForm.load`).  A run that returns has read a form
(`readOrNode_sound`), a form is read with a unit of fuel for each character (`OrForm.Spells.read`), and the exception is thrown
where an OR node is due and something else stands in the text (`Breaks`).
-/

namespace Sbmt.Ghkm.ForestText

open Sbmt.Lib Sbmt.Lib.Phrase Sbmt.Lib.Istream List

/-! ## Forms -/

mutual

inductive OrForm where
  | ref (id : Int)
  | node (id : Int) (alternatives : List AndForm)

inductive AndForm where
  | leaf (word : Text)
  | node (label : Text) (children : List OrForm)

end

/-- White space is skipped only if it begins with a blank. -/
def skip (t : Text) : Text := if t.head? = some ' ' then t.dropWhile isSpace else t

/-- An OR node is due, and begins as it should. -/
def Marked (t r : Text) : Prop := ∃ u, t.dropWhile isSpace = '(' :: u ∧ u.dropWhile isSpace = '#' :: r

def Opens (t : Text) (id : Int) (r : Text) : Prop := ∃ u, Marked t u ∧ ReadsInt u id r

/-- A label ends at white space. -/
def SpellsLabel (label t r : Text) : Prop :=
  label = (t.dropWhile isSpace).takeWhile (!isSpace ·) ∧ r = (t.dropWhile isSpace).dropWhile (!isSpace ·) ∧ r ≠ []

/-- A word ends at a parenthesis that no white space stands before. -/
def SpellsWord : Text → Text → Text → Prop
  | [], t, r => t = ')' :: r
  | c :: w, t, r => t.head? ≠ some ')' ∧ ∃ u, t.dropWhile isSpace = c :: u ∧ SpellsWord w u r

mutual

def OrForm.Spells : OrForm → Text → Text → Prop
  | .ref id, t, r => ∃ u, Opens t id u ∧ skip u = ')' :: r
  | .node id as, t, r => ∃ u, Opens t id u ∧ as ≠ [] ∧ spellsAlternatives as (skip u) r

/-- What is left begins with a parenthesis behind a word, which belongs to the OR node. -/
def AndForm.Spells : AndForm → Text → Text → Prop
  | .leaf w, t, r => (skip t).head? ≠ some '(' ∧ ∃ u, r = ')' :: u ∧ SpellsWord w (skip t) u
  | .node label cs, t, r => ∃ u v, skip t = '(' :: u ∧ SpellsLabel label u v ∧ spellsChildren cs (skip v) r

def spellsAlternatives : List AndForm → Text → Text → Prop
  | [], t, r => t = ')' :: r
  | a :: as, t, r => t.head? ≠ some ')' ∧ ∃ u, a.Spells t u ∧ spellsAlternatives as (skip u) r

def spellsChildren : List OrForm → Text → Text → Prop
  | [], t, r => t = ')' :: r
  | c :: cs, t, r => t.head? ≠ some ')' ∧ ∃ u, c.Spells t u ∧ spellsChildren cs (skip u) r

end

/-! ## Loading -/

mutual

def OrForm.load : OrForm → List OrNode → Option Nat × List OrNode
  | .ref id, nodes => (getORNode nodes id, nodes)
  | .node id as, nodes => loadAlternatives id none as nodes

def AndForm.load : AndForm → List OrNode → AndNode × List OrNode
  | .leaf w, nodes => (⟨unescape w, false, (-1, -1), []⟩, nodes)
  | .node label cs, nodes => (⟨label, true, (-1, -1), (loadChildren cs nodes).1⟩, (loadChildren cs nodes).2)

def loadAlternatives (id : Int) : Option Nat → List AndForm → List OrNode → Option Nat × List OrNode
  | p, [], nodes => (p, nodes)
  | _, a :: as, nodes =>
    let r := addNodeById (a.load nodes).2 (a.load nodes).1 id
    loadAlternatives id (some r.1) as r.2

def loadChildren : List OrForm → List OrNode → List (Option Nat) × List OrNode
  | [], nodes => ([], nodes)
  | c :: cs, nodes =>
    ((c.load nodes).1 :: (loadChildren cs (c.load nodes).2).1, (loadChildren cs (c.load nodes).2).2)

end

/-! ## What is left of a text -/

variable {t u r : Text} {id : Int}

theorem length_skip_le (t : Text) : (skip t).length ≤ t.length := by
  unfold skip
  split
  · exact (dropWhile_suffix _).length_le
  · exact Nat.le_refl _

theorem length_skip_lt (h : t.head? = some ' ') : (skip t).length < t.length := by
  cases t with
  | nil => cases h
  | cons c t =>
    obtain rfl : c = ' ' := Option.some.inj h
    have hskip : skip (' ' :: t) = t.dropWhile isSpace := rfl
    rw [hskip]
    exact Nat.lt_succ_of_le (dropWhile_suffix _).length_le

theorem skip_of_head (h : t.head? ≠ some ' ') : skip t = t := if_neg h

theorem dropWhile_skip (t : Text) : (skip t).dropWhile isSpace = t.dropWhile isSpace := by
  unfold skip
  split
  · exact dropWhile_idempotent _ _
  · rfl

variable {c : Char}

theorem length_of_dropWhile {p : Char → Bool} (h : t.dropWhile p = c :: r) : r.length < t.length := by
  have := (dropWhile_suffix p (l := t)).length_le
  rw [h, length_cons] at this
  omega

theorem Marked.length_lt (h : Marked t r) : r.length + 1 < t.length := by
  obtain ⟨u, hu, hr⟩ := h
  have := length_of_dropWhile hu
  have := length_of_dropWhile hr
  omega

theorem length_scanInt (t : Text) : (scanInt t).2.length ≤ t.length := by
  refine (dropWhile_suffix _).length_le.trans ?_
  split
  · simp
  · exact Nat.le_refl _

theorem Opens.length_lt (h : Opens t id r) : r.length + 1 < t.length := by
  obtain ⟨u, hu, hread, -⟩ := h
  have := hu.length_lt
  have hscan := length_scanInt (u.dropWhile isSpace)
  rw [hread] at hscan
  have := (dropWhile_suffix isSpace (l := u)).length_le
  dsimp only at hscan
  omega

variable {label : Text}

theorem SpellsLabel.length_le (h : SpellsLabel label t r) : r.length ≤ t.length := by
  rw [h.2.1]
  exact (dropWhile_suffix _).length_le.trans (dropWhile_suffix _).length_le

theorem SpellsWord.length_lt {w : Text} (h : SpellsWord w t r) : w.length + r.length < t.length := by
  induction w generalizing t with
  | nil =>
    obtain rfl : t = ')' :: r := h
    simp
  | cons c w ih =>
    obtain ⟨-, u, hu, hw⟩ := h
    have := ih hw
    have := length_of_dropWhile hu
    simp only [length_cons]
    omega

mutual

theorem OrForm.Spells.length_lt : {F : OrForm} → {t r : Text} → F.Spells t r → r.length < t.length
  | .ref id, t, r, h => by
    obtain ⟨u, hu, hr⟩ := h
    have := hu.length_lt
    have hskip := length_skip_le u
    rw [hr, length_cons] at hskip
    omega
  | .node id as, t, r, h => by
    obtain ⟨u, hu, -, hr⟩ := h
    have := hu.length_lt
    have := length_skip_le u
    have := spellsAlternatives_length_lt hr
    omega

theorem AndForm.Spells.length_lt :
    {A : AndForm} → {t r : Text} → A.Spells t r → t.head? ≠ some ')' → r.length < t.length
  | .leaf w, t, r, h, ht => by
    obtain ⟨-, u, rfl, hw⟩ := h
    have hlen := hw.length_lt
    have := length_skip_le t
    rw [length_cons]
    by_cases hblank : t.head? = some ' '
    · have := length_skip_lt hblank
      omega
    · rw [skip_of_head hblank] at hw
      cases w with
      | nil => exact absurd (congrArg List.head? hw) ht
      | cons c w =>
        rw [length_cons] at hlen
        omega
  | .node label cs, t, r, h, _ => by
    obtain ⟨u, v, hu, hlabel, hcs⟩ := h
    have := spellsChildren_length_lt hcs
    have := length_skip_le v
    have := hlabel.length_le
    have hskip := length_skip_le t
    rw [hu, length_cons] at hskip
    omega

theorem spellsAlternatives_length_lt : {as : List AndForm} → {t r : Text} → spellsAlternatives as t r → r.length < t.length
  | [], t, r, h => by
    obtain rfl : t = ')' :: r := h
    simp
  | a :: as, t, r, h => by
    obtain ⟨ht, u, ha, has⟩ := h
    have := ha.length_lt ht
    have := length_skip_le u
    have := spellsAlternatives_length_lt has
    omega

theorem spellsChildren_length_lt : {cs : List OrForm} → {t r : Text} → spellsChildren cs t r → r.length < t.length
  | [], t, r, h => by
    obtain rfl : t = ')' :: r := h
    simp
  | c :: cs, t, r, h => by
    obtain ⟨-, u, hc, hcs⟩ := h
    have := hc.length_lt
    have := length_skip_le u
    have := spellsChildren_length_lt hcs
    omega

end

/-! ## Steps of the readers on a text -/

variable {s : Istream} {nodes nodes' : List OrNode} {fuel k : Nat} {junk : Junk}

theorem eof_peek (h : s.eof = true) : s.peek.2.eof = true := by simp [peek_of_not_good (s := s) (by simp [good, h]), h]

theorem good_skipBlanks (h : s.good = false) : (skipBlanks s).good = false := by
  simp [skipBlanks, peek_of_not_good h]

theorem eof_skipBlanks (h : s.eof = true) : (skipBlanks s).eof = true := by
  simp [skipBlanks, peek_of_not_good (s := s) (by simp [good, h]), h]

theorem skipBlanks_reading (h : skip t ≠ []) : skipBlanks (reading t) = reading (skip t) := by
  cases t with
  | nil => exact absurd rfl h
  | cons c t =>
    by_cases hc : c = ' '
    · subst hc
      have hskip : skip (' ' :: t) = (' ' :: t).dropWhile isSpace := rfl
      rw [hskip] at h ⊢
      simp only [skipBlanks, peek_cons, if_true, ws_reading]
      cases hrest : (' ' :: t).dropWhile isSpace with
      | nil => exact absurd hrest h
      | cons d u => simp
    · have hskip : skip (c :: t) = c :: t := skip_of_head (by simp [hc])
      simp [skipBlanks, hc, hskip]

theorem eof_skipBlanks_reading (h : skip t = []) : (skipBlanks (reading t)).eof = true := by
  cases t with
  | nil => rfl
  | cons c t =>
    by_cases hc : c = ' '
    · subst hc
      have hskip : (' ' :: t).dropWhile isSpace = [] := h
      simp only [skipBlanks, peek_cons, if_true, ws_reading, hskip, skipped_nil]
      rfl
    · rw [skip_of_head (by simp [hc])] at h
      cases h

theorem peek_reading (t : Text) : (reading t).peek.1 = t.head? := by cases t <;> rfl

theorem peek_reading_snd (h : t ≠ []) : (reading t).peek.2 = reading t := by
  cases t with
  | nil => exact absurd rfl h
  | cons c t => rfl

theorem peek_ne_of_not_good (h : s.good = false) : s.peek.1 ≠ some c := by simp [peek_of_not_good h]

theorem skip_ne_nil (h : t.dropWhile isSpace = c :: u) : skip t ≠ [] := by
  intro hnil
  rw [← dropWhile_skip, hnil] at h
  cases h

theorem readOrNode_of_opens (h : Opens t id u) :
    readOrNode junk (fuel + 1) (reading t) nodes =
      if (skipBlanks (reading u)).peek.1 = some ')' then
        .ok (getORNode nodes id, ((skipBlanks (reading u)).peek.2.getChar '#').2, nodes)
      else readAlternatives junk (readAndNode junk (readOrNode junk fuel) fuel) id fuel none
        (skipBlanks (reading u)).peek.2 nodes := by
  obtain ⟨v, ⟨w, hw, hv⟩, hid⟩ := h
  rw [readOrNode]
  simp only [skipBlanks_reading (skip_ne_nil hw), eof_reading, getChar_reading ((dropWhile_skip t).trans hw),
    getChar_reading hv, getInt_reading hid, ne_eq, not_true_eq_false, if_false]
  rfl

/-! ## A form is read -/

variable {ch : Char}

theorem readLeaf_of_spells {w : Text} (h : SpellsWord w t r) (hk : w.length < k) :
    readLeaf k ch label (reading t) = .ok (label ++ w, reading (')' :: r)) := by
  induction w generalizing t k ch label with
  | nil =>
    obtain ⟨k, rfl⟩ := Nat.exists_eq_succ_of_ne_zero (Nat.ne_of_gt hk)
    obtain rfl : t = ')' :: r := h
    simp [readLeaf]
  | cons c w ih =>
    obtain ⟨k, rfl⟩ := Nat.exists_eq_succ_of_ne_zero (Nat.ne_zero_of_lt hk)
    obtain ⟨ht, u, hu, hw⟩ := h
    have hne : t ≠ [] := by rintro rfl; cases hu
    rw [readLeaf, peek_reading, if_neg ht, peek_reading_snd hne, getChar_reading hu]
    dsimp only
    rw [ih hw (Nat.lt_of_succ_lt_succ hk), append_assoc]
    rfl

mutual

theorem OrForm.Spells.read : {F : OrForm} → {t r : Text} → {nodes : List OrNode} → {fuel : Nat} → F.Spells t r →
    t.length < fuel →
    readOrNode junk fuel (reading t) nodes = .ok ((F.load nodes).1, reading r, (F.load nodes).2)
  | .ref id, t, r, nodes, fuel + 1, h, hfuel => by
    obtain ⟨u, hu, hr⟩ := h
    rw [readOrNode_of_opens hu, skipBlanks_reading (by rw [hr]; exact cons_ne_nil _ _), hr]
    rfl
  | .node id as, t, r, nodes, fuel + 1, h, hfuel => by
    obtain ⟨u, hu, hne, has⟩ := h
    have hlen := hu.length_lt
    have hskip := length_skip_le u
    have hhead : (skip u).head? ≠ some ')' := by
      cases as with
      | nil => exact absurd rfl hne
      | cons a as => exact has.1
    have hnil : skip u ≠ [] := by
      intro hnil
      have := spellsAlternatives_length_lt has
      simp [hnil] at this
    rw [readOrNode_of_opens hu, skipBlanks_reading hnil, peek_reading, if_neg hhead, peek_reading_snd hnil]
    exact readAlternatives_of_spells has (by omega) (by omega)

theorem AndForm.Spells.read : {A : AndForm} → {t r : Text} → {nodes : List OrNode} → {fuel : Nat} → A.Spells t r →
    t.length < fuel →
    readAndNode junk (readOrNode junk fuel) fuel (reading t) nodes =
      .ok (some (A.load nodes).1, reading r, (A.load nodes).2)
  | .leaf w, t, r, nodes, fuel, h, hfuel => by
    obtain ⟨hhead, u, rfl, hw⟩ := h
    have hlen := hw.length_lt
    have hskip := length_skip_le t
    have hnil : skip t ≠ [] := ne_nil_of_length_pos (by omega)
    rw [readAndNode, skipBlanks_reading hnil]
    simp only [eof_reading, peek_reading, if_neg hhead, peek_reading_snd hnil,
      readLeaf_of_spells hw (show w.length < fuel by omega)]
    rfl
  | .node label cs, t, r, nodes, fuel, h, hfuel => by
    obtain ⟨u, v, hu, ⟨rfl, hv, hvne⟩, hcs⟩ := h
    have hskip := length_skip_le t
    rw [hu, length_cons] at hskip
    have hlabel : v.length ≤ u.length := SpellsLabel.length_le ⟨rfl, hv, hvne⟩
    have hskipv := length_skip_le v
    have hnil : skip v ≠ [] := by
      intro hnil
      have := spellsChildren_length_lt hcs
      simp [hnil] at this
    obtain ⟨d, w, rfl⟩ := exists_cons_of_ne_nil hvne
    rw [readAndNode, skipBlanks_reading (by rw [hu]; exact cons_ne_nil _ _), hu]
    have hch : (reading ('(' :: u)).getChar junk.ch = ('(', reading u) := getChar_reading rfl
    have hchildren : readChildren (readOrNode junk fuel) fuel [] (reading (skip (d :: w))) nodes =
        .ok ([] ++ (loadChildren cs nodes).1, reading (')' :: r), (loadChildren cs nodes).2) :=
      readChildren_of_spells hcs (by omega) (by omega)
    simp only [eof_reading, peek_cons, if_true, hch, getWord_reading hv.symm, skipBlanks_reading hnil, hchildren]
    rfl

theorem readAlternatives_of_spells : {as : List AndForm} → {t r : Text} → {nodes : List OrNode} → {fuel k : Nat} →
    {id : Int} → {p : Option Nat} → spellsAlternatives as t r → t.length < fuel → t.length < k →
    readAlternatives junk (readAndNode junk (readOrNode junk fuel) fuel) id k p (reading t) nodes =
      .ok ((loadAlternatives id p as nodes).1, reading r, (loadAlternatives id p as nodes).2)
  | [], t, r, nodes, fuel, k + 1, id, p, h, hfuel, hk => by
    obtain rfl : t = ')' :: r := h
    rfl
  | a :: as, t, r, nodes, fuel, k + 1, id, p, h, hfuel, hk => by
    obtain ⟨ht, u, ha, has⟩ := h
    have hlen := ha.length_lt ht
    have hskip := length_skip_le u
    have hnil : t ≠ [] := ne_nil_of_length_pos (by omega)
    have hskipu : skip u ≠ [] := by
      intro hnil
      have := spellsAlternatives_length_lt has
      simp [hnil] at this
    rw [readAlternatives, peek_reading, if_neg ht, peek_reading_snd hnil, ha.read hfuel]
    dsimp only
    rw [skipBlanks_reading hskipu, readAlternatives_of_spells has (by omega) (by omega)]
    rfl

theorem readChildren_of_spells : {cs : List OrForm} → {t r : Text} → {nodes : List OrNode} → {fuel k : Nat} →
    {children : List (Option Nat)} → spellsChildren cs t r → t.length < fuel → t.length < k →
    readChildren (readOrNode junk fuel) k children (reading t) nodes =
      .ok (children ++ (loadChildren cs nodes).1, reading (')' :: r), (loadChildren cs nodes).2)
  | [], t, r, nodes, fuel, k + 1, children, h, hfuel, hk => by
    obtain rfl : t = ')' :: r := h
    simp [readChildren, loadChildren]
  | c :: cs, t, r, nodes, fuel, k + 1, children, h, hfuel, hk => by
    obtain ⟨ht, u, hc, hcs⟩ := h
    have hlen := hc.length_lt
    have hskip := length_skip_le u
    have hnil : t ≠ [] := ne_nil_of_length_pos (by omega)
    have hskipu : skip u ≠ [] := by
      intro hnil
      have := spellsChildren_length_lt hcs
      simp [hnil] at this
    rw [readChildren, peek_reading, if_neg ht, peek_reading_snd hnil, hc.read hfuel]
    dsimp only
    rw [skipBlanks_reading hskipu, readChildren_of_spells hcs (by omega) (by omega), append_assoc]
    rfl

end

/-! ## Where the exception is thrown -/

/-- What is due at a place of the text. -/
inductive Due where
  | node
  | alternatives
  | children

/-- The text goes wrong where an OR node is due, and not before. -/
inductive Breaks : Due → Text → Prop where
  | mark {t : Text} : skip t ≠ [] → (∀ r, ¬ Marked t r) → Breaks .node t
  | node {t u : Text} {id : Int} : Opens t id u → Breaks .alternatives (skip u) → Breaks .node t
  | alternative {t u : Text} {A : AndForm} : t.head? ≠ some ')' → A.Spells t u → Breaks .alternatives (skip u) →
      Breaks .alternatives t
  | label {t u v label : Text} : t.head? ≠ some ')' → skip t = '(' :: u → SpellsLabel label u v →
      Breaks .children (skip v) → Breaks .alternatives t
  | child {t u : Text} {F : OrForm} : t.head? ≠ some ')' → F.Spells t u → Breaks .children (skip u) →
      Breaks .children t
  | first {t : Text} : t.head? ≠ some ')' → Breaks .node t → Breaks .children t

variable {d : Due}

theorem Breaks.head (h : Breaks d t) (hd : d ≠ .node) : t.head? ≠ some ')' := by
  cases h with
  | mark => exact absurd rfl hd
  | node => exact absurd rfl hd
  | alternative ht => exact ht
  | label ht => exact ht
  | child ht => exact ht
  | first ht => exact ht

theorem Breaks.ne_nil (h : Breaks d t) : t ≠ [] := by
  rintro rfl
  generalize ht : ([] : Text) = t at h
  induction h with
  | mark hskip => exact hskip (ht ▸ rfl)
  | node hopen =>
    have := hopen.length_lt
    simp [← ht] at this
  | alternative hhead hspells =>
    have := hspells.length_lt hhead
    simp [← ht] at this
  | label _ hskip =>
    rw [← ht] at hskip
    cases hskip
  | child _ hspells =>
    have := hspells.length_lt
    simp [← ht] at this
  | first _ _ ih => exact ih ht

/-- The first character that is read is no parenthesis, or the second no hash sign; at the end of the text neither
variable gets a new value, and none can be both. -/
theorem readOrNode_of_not_marked (hskip : skip t ≠ []) (h : ∀ r, ¬ Marked t r) :
    readOrNode junk (fuel + 1) (reading t) nodes = .error (.formatError nodes) := by
  rw [readOrNode, skipBlanks_reading hskip]
  simp only [eof_reading, Bool.false_eq_true, if_false]
  cases hu : t.dropWhile isSpace with
  | nil =>
    rw [getChar_exhausted ((dropWhile_skip t).trans hu)]
    split
    · rfl
    · next hch =>
      have hch : junk.ch = '(' := not_not.1 hch
      rw [hch]
      rfl
  | cons c u =>
    rw [getChar_reading ((dropWhile_skip t).trans hu)]
    split
    · rfl
    · next hc =>
      obtain rfl : c = '(' := not_not.1 hc
      cases hv : u.dropWhile isSpace with
      | nil =>
        rw [getChar_exhausted hv]
        rfl
      | cons d v =>
        rw [getChar_reading hv]
        have hd : d ≠ '#' := by
          rintro rfl
          exact h v ⟨u, hu, hv⟩
        rw [if_pos hd]

/-- What a run of a reader says when it goes wrong where `Breaks` tells, `due` standing for the loops' arguments. -/
def Throws (junk : Junk) : Due → Text → Prop
  | .node, t => ∀ fuel nodes, t.length < fuel →
      ∃ nodes', readOrNode junk fuel (reading t) nodes = .error (.formatError nodes')
  | .alternatives, t => ∀ fuel k id p nodes, t.length < fuel → t.length < k →
      ∃ nodes', readAlternatives junk (readAndNode junk (readOrNode junk fuel) fuel) id k p (reading t) nodes =
        .error (.formatError nodes')
  | .children, t => ∀ fuel k children nodes, t.length < fuel → t.length < k →
      ∃ nodes', readChildren (readOrNode junk fuel) k children (reading t) nodes = .error (.formatError nodes')

theorem throws_of_breaks (h : Breaks d t) : Throws junk d t := by
  induction h with
  | mark hskip hno =>
    rintro (_ | fuel) nodes hfuel
    · exact absurd hfuel (Nat.not_lt_zero _)
    · exact ⟨nodes, readOrNode_of_not_marked hskip hno⟩
  | @node t u id hopen hbreak ih =>
    rintro (_ | fuel) nodes hfuel
    · exact absurd hfuel (Nat.not_lt_zero _)
    · have hlen := hopen.length_lt
      have hskip := length_skip_le u
      obtain ⟨nodes', hrun⟩ := ih fuel fuel id none nodes (by omega) (by omega)
      rw [readOrNode_of_opens hopen, skipBlanks_reading hbreak.ne_nil, peek_reading, if_neg (hbreak.head nofun),
        peek_reading_snd hbreak.ne_nil]
      exact ⟨nodes', hrun⟩
  | @alternative t u A ht hspells hbreak ih =>
    rintro fuel (_ | k) id p nodes hfuel hk
    · exact absurd hk (Nat.not_lt_zero _)
    · have hlen := hspells.length_lt ht
      have hskip := length_skip_le u
      have hnil : t ≠ [] := ne_nil_of_length_pos (by omega)
      rw [readAlternatives, peek_reading, if_neg ht, peek_reading_snd hnil, hspells.read hfuel]
      dsimp only
      rw [skipBlanks_reading hbreak.ne_nil]
      exact ih fuel k id _ _ (by omega) (by omega)
  | @label t u v label ht hskip hlabel hbreak ih =>
    rintro fuel (_ | k) id p nodes hfuel hk
    · exact absurd hk (Nat.not_lt_zero _)
    · have hlen := length_skip_le t
      rw [hskip, length_cons] at hlen
      have hlenv := hlabel.length_le
      have hskipv := length_skip_le v
      have hnil : t ≠ [] := ne_nil_of_length_pos (by omega)
      obtain ⟨-, hv, hvne⟩ := hlabel
      obtain ⟨d, w, rfl⟩ := exists_cons_of_ne_nil hvne
      obtain ⟨nodes', hrun⟩ := ih fuel fuel [] nodes (by omega) (by omega)
      have hch : (reading ('(' :: u)).getChar junk.ch = ('(', reading u) := getChar_reading rfl
      refine ⟨nodes', ?_⟩
      rw [readAlternatives, peek_reading, if_neg ht, peek_reading_snd hnil, readAndNode,
        skipBlanks_reading (by rw [hskip]; exact cons_ne_nil _ _), hskip]
      simp only [eof_reading, peek_cons, if_true, hch, getWord_reading hv.symm, skipBlanks_reading hbreak.ne_nil, hrun]
      rfl
  | @child t u F ht hspells hbreak ih =>
    rintro fuel (_ | k) children nodes hfuel hk
    · exact absurd hk (Nat.not_lt_zero _)
    · have hlen := hspells.length_lt
      have hskip := length_skip_le u
      have hnil : t ≠ [] := ne_nil_of_length_pos (by omega)
      rw [readChildren, peek_reading, if_neg ht, peek_reading_snd hnil, hspells.read hfuel]
      dsimp only
      rw [skipBlanks_reading hbreak.ne_nil]
      exact ih fuel k _ _ (by omega) (by omega)
  | @first t ht hbreak ih =>
    rintro fuel (_ | k) children nodes hfuel hk
    · exact absurd hk (Nat.not_lt_zero _)
    · obtain ⟨nodes', hrun⟩ := ih fuel nodes hfuel
      refine ⟨nodes', ?_⟩
      rw [readChildren, peek_reading, if_neg ht, peek_reading_snd hbreak.ne_nil, hrun]

/-! ## What a run says about the text -/

/-- A run that never returns nor throws. -/
def Hopeless {α : Type} (x : Except Stop α) : Prop := x = .error .unfinished ∨ x = .error .nullDeref

theorem readLeaf_of_not_good (h : s.good = false) : readLeaf k ch label s = .error .unfinished := by
  induction k generalizing ch label s with
  | zero => rfl
  | succ k ih =>
    rw [readLeaf, peek_of_not_good h, getChar_failed good_failed]
    exact ih good_failed

/-- Behind a number that could not be read, or at the end of the text, no alternative is found. -/
theorem readAlternatives_of_not_good {readOr : Reader (Option Nat)} {p : Option Nat} (h : s.good = false) :
    Hopeless (readAlternatives junk (readAndNode junk readOr fuel) id k p s nodes) := by
  cases k with
  | zero => exact .inl rfl
  | succ k =>
    rw [readAlternatives, if_neg (peek_ne_of_not_good h), readAndNode]
    have hpeek : s.peek.2.good = false := by rw [peek_of_not_good h]; exact good_failed
    have hgood := good_skipBlanks hpeek
    have hleaf : readLeaf fuel junk.ch [] (skipBlanks s.peek.2).peek.2 = .error .unfinished := by
      rw [peek_of_not_good hgood]
      exact readLeaf_of_not_good good_failed
    simp only [if_neg (peek_ne_of_not_good hgood), hleaf]
    cases (skipBlanks s.peek.2).eof with
    | true => exact .inr rfl
    | false => exact .inl rfl

theorem readOrNode_of_eof (h : s.eof = true) :
    readOrNode junk (fuel + 1) s nodes = .ok (none, skipBlanks s, nodes) := by
  rw [readOrNode]
  simp [eof_skipBlanks h]

/-- Children are missed for ever at the end of the text. -/
theorem readChildren_of_eof {children : List (Option Nat)} (h : s.eof = true) :
    readChildren (readOrNode junk fuel) k children s nodes = .error .unfinished := by
  induction k generalizing children s with
  | zero => rfl
  | succ k ih =>
    have hgood : s.good = false := by simp [good, h]
    rw [readChildren, if_neg (peek_ne_of_not_good hgood)]
    cases fuel with
    | zero => rfl
    | succ fuel =>
      rw [readOrNode_of_eof (eof_peek h)]
      exact ih (eof_skipBlanks (eof_skipBlanks (eof_peek h)))

theorem readLeaf_ne_formatError : readLeaf k ch label s ≠ .error (.formatError nodes) := by
  induction k generalizing ch label s with
  | zero => nofun
  | succ k ih =>
    rw [readLeaf]
    split
    · nofun
    · exact ih

/-- Nor behind a number that could not be read. -/
theorem readOrNode_of_no_number (h : Marked t u) (hno : ∀ i r, ¬ ReadsInt u i r) :
    Hopeless (readOrNode junk (fuel + 1) (reading t) nodes) := by
  obtain ⟨v, hv, hu⟩ := h
  have hgood := good_skipBlanks (good_getInt (j := junk.nodeID) hno)
  rw [readOrNode]
  simp only [skipBlanks_reading (skip_ne_nil hv), eof_reading, getChar_reading ((dropWhile_skip t).trans hv),
    getChar_reading hu, ne_eq, not_true_eq_false, if_false, if_neg (peek_ne_of_not_good hgood)]
  exact readAlternatives_of_not_good (by rw [peek_of_not_good hgood]; exact good_failed)

theorem readLeaf_sound {label' : Text} (h : readLeaf k ch label (reading t) = .ok (label', s)) :
    ∃ w r, SpellsWord w t r ∧ label' = label ++ w ∧ s = reading (')' :: r) := by
  induction k generalizing t ch label with
  | zero => cases h
  | succ k ih =>
    rw [readLeaf, peek_reading] at h
    split at h
    · next hhead =>
      obtain ⟨r, rfl⟩ := head?_eq_some_iff.1 hhead
      obtain ⟨rfl, rfl⟩ := Prod.mk.inj (Except.ok.inj h)
      exact ⟨[], r, rfl, (append_nil _).symm, rfl⟩
    · next hhead =>
      cases ht : t.dropWhile isSpace with
      | nil =>
        have hgood : ((reading t).peek.2.getChar ch).2.good = false := by
          cases t with
          | nil => rfl
          | cons c t => rw [peek_cons, getChar_exhausted ht]; exact good_failed
        dsimp only at h
        rw [readLeaf_of_not_good hgood] at h
        cases h
      | cons c u =>
        have hne : t ≠ [] := by rintro rfl; cases ht
        rw [peek_reading_snd hne, getChar_reading ht] at h
        obtain ⟨w, r, hw, rfl, rfl⟩ := ih h
        exact ⟨c :: w, r, ⟨hhead, u, ht, hw⟩, by simp, rfl⟩

/-- What the readers of OR nodes say with so much fuel; a run that returns at the end of the text has read nothing. -/
def OrSound (junk : Junk) (fuel : Nat) : Prop := ∀ t nodes,
  (∀ p s nodes', readOrNode junk fuel (reading t) nodes = .ok (p, s, nodes') →
    (s.eof = true ∧ p = none) ∨ ∃ (F : OrForm) (r : Text), F.Spells t r ∧ s = reading r ∧ (p, nodes') = F.load nodes) ∧
  ∀ nodes', readOrNode junk fuel (reading t) nodes = .error (.formatError nodes') → Breaks .node t

theorem Hopeless.ne_ok {α : Type} {x : Except Stop α} {y : α} (h : Hopeless x) : x ≠ .ok y := by
  rcases h with rfl | rfl <;> nofun

theorem Hopeless.ne_formatError {α : Type} {x : Except Stop α} (h : Hopeless x) : x ≠ .error (.formatError nodes) := by
  rcases h with rfl | rfl <;> nofun

theorem readChildren_sound (hor : OrSound junk fuel) (children : List (Option Nat)) (t : Text) (nodes : List OrNode) :
    (∀ children' s nodes', readChildren (readOrNode junk fuel) k children (reading t) nodes = .ok (children', s, nodes') →
      ∃ cs r, spellsChildren cs t r ∧ s = reading (')' :: r) ∧ children' = children ++ (loadChildren cs nodes).1 ∧
        nodes' = (loadChildren cs nodes).2) ∧
    ∀ nodes', readChildren (readOrNode junk fuel) k children (reading t) nodes = .error (.formatError nodes') →
      Breaks .children t := by
  induction k generalizing children t nodes with
  | zero => exact ⟨nofun, nofun⟩
  | succ k ih =>
    by_cases hhead : t.head? = some ')'
    · obtain ⟨r, rfl⟩ := head?_eq_some_iff.1 hhead
      refine ⟨?_, nofun⟩
      rintro children' s nodes' ⟨⟩
      exact ⟨[], r, rfl, rfl, by simp [loadChildren], rfl⟩
    · rw [readChildren, peek_reading, if_neg hhead]
      by_cases hnil : t = []
      · subst hnil
        cases fuel with
        | zero => exact ⟨nofun, nofun⟩
        | succ fuel =>
          rw [peek_nil, readOrNode_of_eof eof_ended]
          dsimp only
          rw [readChildren_of_eof (eof_skipBlanks (eof_skipBlanks eof_ended))]
          exact ⟨nofun, nofun⟩
      · rw [peek_reading_snd hnil]
        cases hrun : readOrNode junk fuel (reading t) nodes with
        | error e =>
          refine ⟨nofun, ?_⟩
          rintro nodes' ⟨⟩
          exact .first hhead ((hor t nodes).2 nodes' hrun)
        | ok result =>
          obtain ⟨p, s, nodes1⟩ := result
          dsimp only
          rcases (hor t nodes).1 p s nodes1 hrun with ⟨heof, -⟩ | ⟨F, r, hF, rfl, hload⟩
          · rw [readChildren_of_eof (eof_skipBlanks heof)]
            exact ⟨nofun, nofun⟩
          · by_cases hskip : skip r = []
            · rw [readChildren_of_eof (eof_skipBlanks_reading hskip)]
              exact ⟨nofun, nofun⟩
            · rw [skipBlanks_reading hskip]
              obtain ⟨hok, hbreak⟩ := ih (children ++ [p]) (skip r) nodes1
              obtain ⟨hp, hnodes⟩ := Prod.mk.inj hload
              constructor
              · intro children' s nodes' h
                obtain ⟨cs, u, hcs, hs, hchildren, hnodes'⟩ := hok children' s nodes' h
                refine ⟨F :: cs, u, ⟨hhead, r, hF, hcs⟩, hs, ?_, ?_⟩
                · rw [hchildren, loadChildren, ← hp, ← hnodes, append_assoc]
                  rfl
                · rw [hnodes', loadChildren, ← hnodes]
              · exact fun nodes' h => .child hhead hF (hbreak nodes' h)

theorem readAndNode_sound (hor : OrSound junk fuel) (t : Text) (nodes : List OrNode) :
    (∀ a s nodes', readAndNode junk (readOrNode junk fuel) k (reading t) nodes = .ok (some a, s, nodes') →
      ∃ (A : AndForm) (r : Text), A.Spells t r ∧ s = reading r ∧ (a, nodes') = A.load nodes) ∧
    ∀ nodes', readAndNode junk (readOrNode junk fuel) k (reading t) nodes = .error (.formatError nodes') →
      ∃ u v label, skip t = '(' :: u ∧ SpellsLabel label u v ∧ Breaks .children (skip v) := by
  by_cases hskip : skip t = []
  · have hrun : readAndNode junk (readOrNode junk fuel) k (reading t) nodes =
        .ok (none, skipBlanks (reading t), nodes) := by
      rw [readAndNode]
      simp [eof_skipBlanks_reading hskip]
    rw [hrun]
    exact ⟨nofun, nofun⟩
  · rw [readAndNode, skipBlanks_reading hskip]
    simp only [eof_reading, Bool.false_eq_true, if_false, peek_reading, peek_reading_snd hskip]
    split
    · next hhead =>
      obtain ⟨u, hu⟩ := head?_eq_some_iff.1 hhead
      have hch : (reading ('(' :: u)).getChar junk.ch = ('(', reading u) := getChar_reading rfl
      rw [hu, hch]
      cases hv : (u.dropWhile isSpace).dropWhile (!isSpace ·) with
      | nil =>
        rw [readChildren_of_eof (eof_skipBlanks (getWord_exhausted hv))]
        exact ⟨nofun, nofun⟩
      | cons d v =>
        have hlabel : SpellsLabel ((u.dropWhile isSpace).takeWhile (!isSpace ·)) u (d :: v) :=
          ⟨rfl, hv.symm, cons_ne_nil d v⟩
        rw [getWord_reading hv]
        by_cases hskipv : skip (d :: v) = []
        · rw [readChildren_of_eof (eof_skipBlanks_reading hskipv)]
          exact ⟨nofun, nofun⟩
        · rw [skipBlanks_reading hskipv]
          obtain ⟨hok, hbreak⟩ := readChildren_sound (k := k) hor [] (skip (d :: v)) nodes
          cases hrun : readChildren (readOrNode junk fuel) k [] (reading (skip (d :: v))) nodes with
          | error e =>
            refine ⟨nofun, ?_⟩
            rintro nodes' ⟨⟩
            exact ⟨u, d :: v, _, rfl, hlabel, hbreak nodes' hrun⟩
          | ok result =>
            obtain ⟨children, s, nodes1⟩ := result
            refine ⟨?_, nofun⟩
            rintro a s' nodes' ⟨⟩
            obtain ⟨cs, r, hcs, rfl, rfl, rfl⟩ := hok children s nodes1 hrun
            exact ⟨.node _ cs, r, ⟨u, d :: v, hu, hlabel, hcs⟩, rfl, rfl⟩
    · next hhead =>
      cases hrun : readLeaf k junk.ch [] (reading (skip t)) with
      | error e =>
        refine ⟨nofun, ?_⟩
        rintro nodes' ⟨⟩
        exact absurd hrun readLeaf_ne_formatError
      | ok result =>
        obtain ⟨label, s⟩ := result
        refine ⟨?_, nofun⟩
        rintro a s' nodes' ⟨⟩
        obtain ⟨w, r, hw, hlabel, rfl⟩ := readLeaf_sound hrun
        obtain rfl : label = w := hlabel
        exact ⟨.leaf label, ')' :: r, ⟨hhead, r, rfl, hw⟩, rfl, rfl⟩

theorem readAlternatives_sound (id : Int) (k m : Nat) (hor : OrSound junk fuel) (p : Option Nat) (t : Text)
    (nodes : List OrNode) :
    (∀ p' s nodes', readAlternatives junk (readAndNode junk (readOrNode junk fuel) m) id k p (reading t) nodes =
        .ok (p', s, nodes') →
      ∃ as r, spellsAlternatives as t r ∧ s = reading r ∧ (p', nodes') = loadAlternatives id p as nodes) ∧
    ∀ nodes', readAlternatives junk (readAndNode junk (readOrNode junk fuel) m) id k p (reading t) nodes =
      .error (.formatError nodes') → Breaks .alternatives t := by
  induction k generalizing p t nodes with
  | zero => exact ⟨nofun, nofun⟩
  | succ k ih =>
    by_cases hnil : t = []
    · subst hnil
      exact ⟨nofun, nofun⟩
    by_cases hhead : t.head? = some ')'
    · obtain ⟨r, rfl⟩ := head?_eq_some_iff.1 hhead
      refine ⟨?_, nofun⟩
      rintro p' s nodes' ⟨⟩
      exact ⟨[], r, rfl, rfl, rfl⟩
    · rw [readAlternatives, peek_reading, if_neg hhead, peek_reading_snd hnil]
      obtain ⟨hok, hbreak⟩ := readAndNode_sound (k := m) hor t nodes
      cases hrun : readAndNode junk (readOrNode junk fuel) m (reading t) nodes with
      | error e =>
        refine ⟨nofun, ?_⟩
        rintro nodes' ⟨⟩
        obtain ⟨u, v, label, hu, hlabel, hchildren⟩ := hbreak nodes' hrun
        exact .label hhead hu hlabel hchildren
      | ok result =>
        obtain ⟨_ | a, s, nodes1⟩ := result
        · exact ⟨nofun, nofun⟩
        · obtain ⟨A, r, hA, rfl, hload⟩ := hok a s nodes1 hrun
          obtain ⟨ha, hnodes⟩ := Prod.mk.inj hload
          dsimp only
          by_cases hskip : skip r = []
          · have hgood : (skipBlanks (reading r)).good = false := by simp [good, eof_skipBlanks_reading hskip]
            have hno : Hopeless (readAlternatives junk (readAndNode junk (readOrNode junk fuel) m) id k
                (some (addNodeById nodes1 a id).1) (skipBlanks (reading r)) (addNodeById nodes1 a id).2) :=
              readAlternatives_of_not_good hgood
            exact ⟨fun p' s nodes' h => absurd h hno.ne_ok, fun nodes' h => absurd h hno.ne_formatError⟩
          · rw [skipBlanks_reading hskip]
            obtain ⟨hok', hbreak'⟩ :=
              ih (some (addNodeById nodes1 a id).1) (skip r) (addNodeById nodes1 a id).2
            constructor
            · intro p' s nodes' h
              obtain ⟨as, u, has, hs, hloads⟩ := hok' p' s nodes' h
              refine ⟨A :: as, u, ⟨hhead, r, hA, has⟩, hs, ?_⟩
              rw [hloads, loadAlternatives, ← ha, ← hnodes]
            · exact fun nodes' h => .alternative hhead hA (hbreak' nodes' h)

/-- **A run of the reader that returns has read a form, and the exception tells where the text breaks.** -/
theorem readOrNode_sound (junk : Junk) (fuel : Nat) : OrSound junk fuel := by
  induction fuel with
  | zero =>
    intro t nodes
    constructor
    · rintro p s nodes' ⟨⟩
    · rintro nodes' ⟨⟩
  | succ fuel ih =>
    intro t nodes
    by_cases hskip : skip t = []
    · have hrun : readOrNode junk (fuel + 1) (reading t) nodes = .ok (none, skipBlanks (reading t), nodes) := by
        rw [readOrNode]
        simp [eof_skipBlanks_reading hskip]
      rw [hrun]
      constructor
      · rintro p s nodes' ⟨⟩
        exact .inl ⟨eof_skipBlanks_reading hskip, rfl⟩
      · rintro nodes' ⟨⟩
    by_cases hmark : ∀ u, ¬ Marked t u
    · rw [readOrNode_of_not_marked hskip hmark]
      constructor
      · rintro p s nodes' ⟨⟩
      · exact fun _ _ => .mark hskip hmark
    obtain ⟨u, hu⟩ := not_forall_not.1 hmark
    by_cases hread : ∀ id r, ¬ ReadsInt u id r
    · have hno : Hopeless (readOrNode junk (fuel + 1) (reading t) nodes) := readOrNode_of_no_number hu hread
      exact ⟨fun p s nodes' h => absurd h hno.ne_ok, fun nodes' h => absurd h hno.ne_formatError⟩
    simp only [not_forall, not_not] at hread
    obtain ⟨id, v, hid⟩ := hread
    have hopen : Opens t id v := ⟨u, hu, hid⟩
    rw [readOrNode_of_opens hopen]
    by_cases hskipv : skip v = []
    · have hgood : (skipBlanks (reading v)).good = false := by simp [good, eof_skipBlanks_reading hskipv]
      rw [if_neg (peek_ne_of_not_good hgood)]
      have hno : Hopeless (readAlternatives junk (readAndNode junk (readOrNode junk fuel) fuel) id fuel none
          (skipBlanks (reading v)).peek.2 nodes) :=
        readAlternatives_of_not_good (by rw [peek_of_not_good hgood]; exact good_failed)
      exact ⟨fun p s nodes' h => absurd h hno.ne_ok, fun nodes' h => absurd h hno.ne_formatError⟩
    · rw [skipBlanks_reading hskipv, peek_reading, peek_reading_snd hskipv]
      split
      · next hhead =>
        obtain ⟨r, hr⟩ := head?_eq_some_iff.1 hhead
        rw [hr]
        constructor
        · rintro p s nodes' ⟨⟩
          exact .inr ⟨.ref id, r, ⟨v, hopen, hr⟩, rfl, rfl⟩
        · rintro nodes' ⟨⟩
      · next hhead =>
        obtain ⟨hok, hbreak⟩ := readAlternatives_sound id fuel fuel ih none (skip v) nodes
        constructor
        · intro p s nodes' h
          obtain ⟨as, r, has, rfl, hload⟩ := hok p s nodes' h
          refine .inr ⟨.node id as, r, ⟨v, hopen, ?_, has⟩, rfl, hload⟩
          rintro rfl
          exact hhead (congrArg List.head? has)
        · exact fun nodes' h => .node hopen (hbreak nodes' h)

end Sbmt.Ghkm.ForestText
