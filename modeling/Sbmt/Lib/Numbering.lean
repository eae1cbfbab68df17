import Mathlib

/-!
# Numbering the states a depth first search meets

A graph is given by the labelled successors of a state. `visit` numbers the
states in the order in which it meets them, writes down the links of a state as
it comes back from its successors, and calls a state dead when it is not the
goal and no link was kept for it. A link into a dead state is not kept. While a
state is being explored it is not dead, so a link back to it is kept.

The main results: with enough fuel the search ends (`visit_isSome`), it meets
what can be reached (`number_reached`), and the links it kept have the walks to
the goal, link for step (`graph_bijOn`), also when the dead states are taken
out and the others renumbered (`prune_bijOn`).
-/

namespace Sbmt.Lib

open List Function

variable {V L : Type*}

/-- A step of a graph. -/
structure Edge (V L : Type*) where
  src : V
  label : L
  dest : V

inductive Walk (succ : V → List (L × V)) : V → List (Edge V L) → V → Prop
  | nil (v : V) : Walk succ v [] v
  | cons {v w u : V} {l : L} {es : List (Edge V L)} (h : (l, w) ∈ succ v) (rest : Walk succ w es u) :
      Walk succ v (⟨v, l, w⟩ :: es) u

def Reaches (succ : V → List (L × V)) (v w : V) : Prop := ∃ es, Walk succ v es w

section

variable {succ : V → List (L × V)}

theorem Reaches.refl (v : V) : Reaches succ v v := ⟨[], .nil v⟩

variable {v w : V}

theorem Walk.append {u : V} {es fs : List (Edge V L)} (h : Walk succ v es w) (h' : Walk succ w fs u) :
    Walk succ v (es ++ fs) u := by
  induction h with
  | nil v => exact h'
  | cons hmem _ ih => exact .cons hmem (ih h')

theorem Reaches.tail {u : V} {l : L} (hw : Reaches succ v w) (h : (l, u) ∈ succ w) : Reaches succ v u := by
  obtain ⟨es, hes⟩ := hw
  exact ⟨_, hes.append (.cons h (.nil u))⟩

theorem Reaches.trans {u : V} (h : Reaches succ v w) (h' : Reaches succ w u) : Reaches succ v u := by
  obtain ⟨es, hes⟩ := h
  obtain ⟨fs, hfs⟩ := h'
  exact ⟨es ++ fs, hes.append hfs⟩

/-- A state that is not the goal reaches it through a successor. -/
theorem Reaches.cases (h : Reaches succ v w) (hne : v ≠ w) : ∃ p ∈ succ v, Reaches succ p.2 w := by
  obtain ⟨ls, hls⟩ := h
  cases hls with
  | nil => exact absurd rfl hne
  | cons hmem hrest => exact ⟨_, hmem, _, hrest⟩

end

structure Link (L : Type*) where
  src : Nat
  dest : Nat
  label : L
deriving DecidableEq

/-- A path through links. -/
inductive Trail (arcs : Nat → List (Link L)) : Nat → List (Link L) → Nat → Prop
  | nil (k : Nat) : Trail arcs k [] k
  | cons {k j : Nat} {a : Link L} {as : List (Link L)} (h : a ∈ arcs k) (rest : Trail arcs a.dest as j) :
      Trail arcs k (a :: as) j

/-- The states met so far, by number, and what is known of each. -/
structure Numbering (V L : Type*) where
  names : List V
  arcs : Nat → List (Link L)
  dead : Nat → Bool

namespace Numbering

def empty : Numbering V L := ⟨[], fun _ => [], fun _ => false⟩

/-- A new state, not dead as yet. -/
def push (σ : Numbering V L) (d : V) : Numbering V L where
  names := σ.names ++ [d]
  arcs := update σ.arcs σ.names.length []
  dead := update σ.dead σ.names.length false

/-- A link to the state `r.1` unless that is dead; the flag tells whether a link
was kept. -/
def link (src : Nat) (l : L) (kept : Bool) (r : Nat × Numbering V L) : Bool × Numbering V L :=
  if r.2.dead r.1 then (kept, r.2)
  else (true, { r.2 with arcs := update r.2.arcs src (⟨src, r.1, l⟩ :: r.2.arcs src) })

def finish (src : Nat) (isDead : Bool) (σ : Numbering V L) : Numbering V L :=
  { σ with dead := update σ.dead src isDead }

variable [DecidableEq V]

/-- The links of the state `src`, its successors taken one after the other. -/
def links (explore : V → Numbering V L → Option (Nat × Numbering V L)) (src : Nat) (ps : List (L × V))
    (acc : Bool × Numbering V L) : Option (Bool × Numbering V L) :=
  ps.foldlM (fun acc p => (explore p.2 acc.2).map (link src p.1 acc.1)) acc

def visit (succ : V → List (L × V)) (goal : V) : Nat → V → Numbering V L → Option (Nat × Numbering V L)
  | 0, d, σ => (σ.names.idxOf? d).map fun k => (k, σ)
  | fuel + 1, d, σ =>
    match σ.names.idxOf? d with
    | some k => some (k, σ)
    | none =>
      (links (visit succ goal fuel) σ.names.length (succ d) (false, σ.push d)).map fun acc =>
        (σ.names.length, acc.2.finish σ.names.length (decide (d ≠ goal) && !acc.1))

/-! ## What a search keeps -/

variable {succ : V → List (L × V)} {goal start : V} {σ σ' σ'' : Numbering V L}

omit [DecidableEq V]

structure Sound (succ : V → List (L × V)) (goal start : V) (σ : Numbering V L) : Prop where
  nodup : σ.names.Nodup
  reached : ∀ v ∈ σ.names, Reaches succ start v
  dead : ∀ k v, σ.names[k]? = some v → σ.dead k = true → ¬ Reaches succ v goal

/-- The state `k` after the successors `ps`: every one of them is numbered, and
linked if it reaches the goal. -/
structure Done (succ : V → List (L × V)) (goal : V) (σ : Numbering V L) (k : Nat) (ps : List (L × V)) : Prop where
  complete : ∀ p ∈ ps, ∃ j, σ.names[j]? = some p.2 ∧ (Reaches succ p.2 goal → ⟨k, j, p.1⟩ ∈ σ.arcs k)
  sound : ∀ a ∈ σ.arcs k, a.src = k ∧ ∃ w, σ.names[a.dest]? = some w ∧ (a.label, w) ∈ ps
  nodup : ps.Nodup → (σ.arcs k).Nodup

/-- Later in the search: the first `n` states are as they were. -/
structure Extends (n : Nat) (σ σ' : Numbering V L) : Prop where
  names : σ.names <+: σ'.names
  arcs : ∀ k < n, σ'.arcs k = σ.arcs k
  dead : ∀ k < n, σ'.dead k = σ.dead k

theorem Extends.refl (n : Nat) (σ : Numbering V L) : Extends n σ σ :=
  ⟨prefix_rfl, fun _ _ => rfl, fun _ _ => rfl⟩

variable {n : Nat}

theorem Extends.trans (h : Extends n σ σ') (h' : Extends n σ' σ'') : Extends n σ σ'' where
  names := h.names.trans h'.names
  arcs := fun k hk => (h'.arcs k hk).trans (h.arcs k hk)
  dead := fun k hk => (h'.dead k hk).trans (h.dead k hk)

theorem Extends.mono {m : Nat} (h : Extends n σ σ') (hm : m ≤ n) : Extends m σ σ' where
  names := h.names
  arcs := fun k hk => h.arcs k (Nat.lt_of_lt_of_le hk hm)
  dead := fun k hk => h.dead k (Nat.lt_of_lt_of_le hk hm)

variable {k : Nat}

theorem Extends.name {v : V} (h : Extends n σ σ') (hk : σ.names[k]? = some v) : σ'.names[k]? = some v := by
  obtain ⟨t, ht⟩ := h.names
  rw [← ht, getElem?_append_left (List.getElem?_eq_some_iff.1 hk).1, hk]

/-- What is done for a state stays done. -/
theorem Done.extend {ps : List (L × V)} (h : Done succ goal σ k ps) (hext : Extends n σ σ') (hk : k < n) :
    Done succ goal σ' k ps where
  complete := by
    intro p hp
    obtain ⟨j, hj, hlink⟩ := h.complete p hp
    refine ⟨j, hext.name hj, fun hr => ?_⟩
    rw [hext.arcs k hk]
    exact hlink hr
  sound := by
    intro a ha
    rw [hext.arcs k hk] at ha
    obtain ⟨hsrc, w, hw, hmem⟩ := h.sound a ha
    exact ⟨hsrc, w, hext.name hw, hmem⟩
  nodup := by
    rw [hext.arcs k hk]
    exact h.nodup

/-- What one call of the search comes back with. -/
structure Visited (succ : V → List (L × V)) (goal start d : V) (σ : Numbering V L) (r : Nat × Numbering V L) : Prop where
  sound : Sound succ goal start r.2
  kept : Extends σ.names.length σ r.2
  name : r.2.names[r.1]? = some d
  done : ∀ j v, σ.names.length ≤ j → r.2.names[j]? = some v → Done succ goal r.2 j (succ v)

/-- The loop over the successors of `d`, which has the number `src`, after the
successors `ps`. -/
structure Linking (succ : V → List (L × V)) (goal start d : V) (σ : Numbering V L) (ps : List (L × V))
    (acc : Bool × Numbering V L) : Prop where
  sound : Sound succ goal start acc.2
  kept : Extends σ.names.length σ acc.2
  name : acc.2.names[σ.names.length]? = some d
  alive : acc.2.dead σ.names.length = false
  here : Done succ goal acc.2 σ.names.length ps
  flag : acc.1 = false → ∀ p ∈ ps, ¬ Reaches succ p.2 goal
  done : ∀ j v, σ.names.length < j → acc.2.names[j]? = some v → Done succ goal acc.2 j (succ v)

/-! ## One step of the loop -/

variable {d : V}

theorem Sound.push (h : Sound succ goal start σ) (hd : d ∉ σ.names) (hreach : Reaches succ start d) :
    Sound succ goal start (σ.push d) where
  nodup := by
    refine nodup_append.2 ⟨h.nodup, nodup_singleton d, ?_⟩
    intro v hv w hw heq
    exact hd (mem_singleton.1 hw ▸ heq ▸ hv)
  reached := by
    intro v hv
    rcases mem_append.1 hv with hv | hv
    · exact h.reached v hv
    · rw [mem_singleton.1 hv]
      exact hreach
  dead := by
    intro k v hk hdead
    have hlt : k < σ.names.length := by
      by_contra hge
      have hlen := (List.getElem?_eq_some_iff.1 hk).1
      obtain rfl : k = σ.names.length := by
        simp [Numbering.push] at hlen
        omega
      simp [Numbering.push] at hdead
    refine h.dead k v ?_ ?_
    · rwa [Numbering.push, getElem?_append_left hlt] at hk
    · have hsame : (σ.push d).dead k = σ.dead k := update_of_ne (Nat.ne_of_lt hlt) _ _
      rwa [hsame] at hdead

theorem Extends.push (σ : Numbering V L) (d : V) : Extends σ.names.length σ (σ.push d) where
  names := prefix_append _ _
  arcs := fun _ hk => update_of_ne (Nat.ne_of_lt hk) _ _
  dead := fun _ hk => update_of_ne (Nat.ne_of_lt hk) _ _

/-- Before the first successor. -/
theorem Linking.begin (h : Sound succ goal start σ) (hd : d ∉ σ.names) (hreach : Reaches succ start d) :
    Linking succ goal start d σ [] (false, σ.push d) where
  sound := h.push hd hreach
  kept := .push σ d
  name := by simp [Numbering.push]
  alive := update_self ..
  here := by
    constructor
    · intro p hp
      cases hp
    · intro a ha
      simp [Numbering.push] at ha
    · simp [Numbering.push]
  flag := by
    intro _ p hp
    cases hp
  done := by
    intro j v hj hv
    have hlen := (List.getElem?_eq_some_iff.1 hv).1
    simp [Numbering.push] at hlen
    omega

variable {l : L} {kept : Bool} {r : Nat × Numbering V L}

/-- A link that is kept changes the state `src` only. -/
theorem Extends.link (src : Nat) : Extends src r.2 (link src l kept r).2 := by
  unfold Numbering.link
  split
  · exact .refl _ _
  · exact ⟨prefix_rfl, fun _ hk => update_of_ne (Nat.ne_of_lt hk) _ _, fun _ _ => rfl⟩

theorem link_names (src : Nat) : (link src l kept r).2.names = r.2.names := by
  unfold Numbering.link
  split
  · rfl
  · rfl

theorem link_dead (src : Nat) : (link src l kept r).2.dead = r.2.dead := by
  unfold Numbering.link
  split
  · rfl
  · rfl

theorem Linking.step {ps : List (L × V)} {acc : Bool × Numbering V L} {p : L × V}
    (h : Linking succ goal start d σ ps acc) (hr : Visited succ goal start p.2 acc.2 r) :
    Linking succ goal start d σ (ps ++ [p]) (link σ.names.length p.1 acc.1 r) := by
  obtain ⟨hlt, -⟩ := List.getElem?_eq_some_iff.1 h.name
  have hlinkArcs : ∀ k, k ≠ σ.names.length → (link σ.names.length p.1 acc.1 r).2.arcs k = r.2.arcs k := by
    intro k hk
    unfold Numbering.link
    split
    · rfl
    · exact update_of_ne hk _ _
  have hhere := h.here.extend hr.kept hlt
  refine ⟨?_, ?_, ?_, ?_, ?_, ?_, ?_⟩
  · refine ⟨?_, ?_, ?_⟩
    · rw [link_names]
      exact hr.sound.nodup
    · rw [link_names]
      exact hr.sound.reached
    · rw [link_names, link_dead]
      exact hr.sound.dead
  · exact h.kept.trans ((hr.kept.mono (Nat.le_of_lt hlt)).trans (.link _))
  · rw [link_names]
    exact hr.kept.name h.name
  · rw [link_dead, hr.kept.dead _ hlt]
    exact h.alive
  · -- the links of the state itself
    by_cases hdead : r.2.dead r.1 = true
    · have heq : link σ.names.length p.1 acc.1 r = (acc.1, r.2) := if_pos hdead
      rw [heq]
      refine ⟨?_, ?_, ?_⟩
      · intro q hq
        rcases mem_append.1 hq with hq | hq
        · exact hhere.complete q hq
        · rw [mem_singleton.1 hq]
          exact ⟨r.1, hr.name, fun hreach => absurd hreach (hr.sound.dead _ _ hr.name hdead)⟩
      · intro a ha
        obtain ⟨hsrc, w, hw, hmem⟩ := hhere.sound a ha
        exact ⟨hsrc, w, hw, mem_append_left _ hmem⟩
      · exact fun hps => hhere.nodup (nodup_append.1 hps).1
    · have heq : link σ.names.length p.1 acc.1 r = (true, { r.2 with
          arcs := update r.2.arcs σ.names.length (⟨σ.names.length, r.1, p.1⟩ :: r.2.arcs σ.names.length) }) :=
        if_neg hdead
      rw [heq]
      refine ⟨?_, ?_, ?_⟩
      · intro q hq
        simp only [update_self]
        rcases mem_append.1 hq with hq | hq
        · obtain ⟨j, hj, hlink⟩ := hhere.complete q hq
          exact ⟨j, hj, fun hreach => mem_cons_of_mem _ (hlink hreach)⟩
        · rw [mem_singleton.1 hq]
          exact ⟨r.1, hr.name, fun _ => mem_cons_self ..⟩
      · intro a ha
        simp only [update_self] at ha
        rcases mem_cons.1 ha with rfl | ha
        · exact ⟨rfl, p.2, hr.name, mem_append_right _ (mem_singleton.2 rfl)⟩
        · obtain ⟨hsrc, w, hw, hmem⟩ := hhere.sound a ha
          exact ⟨hsrc, w, hw, mem_append_left _ hmem⟩
      · -- a link that was there is one of an earlier successor
        intro hps
        rw [nodup_append'] at hps
        simp only [update_self]
        refine nodup_cons.2 ⟨fun hold => ?_, hhere.nodup hps.1⟩
        obtain ⟨-, w, hw, hmem⟩ := hhere.sound _ hold
        obtain rfl : w = p.2 := Option.mem_unique hw hr.name
        exact hps.2.2 hmem (mem_singleton_self p)
  · intro hflag q hq
    unfold Numbering.link at hflag
    split at hflag
    · rename_i hdead
      rcases mem_append.1 hq with hq | hq
      · exact h.flag hflag q hq
      · rw [mem_singleton.1 hq]
        exact hr.sound.dead _ _ hr.name hdead
    · cases hflag
  · -- the states numbered since
    intro j v hj hv
    rw [link_names] at hv
    have hdone : Done succ goal r.2 j (succ v) := by
      rcases Nat.lt_or_ge j acc.2.names.length with hold | hnew
      · have hv' : acc.2.names[j]? = some v := by
          rw [getElem?_eq_getElem hold]
          have := hr.kept.name (getElem?_eq_getElem hold)
          rw [hv] at this
          rw [Option.some.inj this]
        exact (h.done j v hj hv').extend hr.kept hold
      · exact hr.done j v hnew hv
    refine ⟨?_, ?_, ?_⟩
    · rw [link_names, hlinkArcs j (Nat.ne_of_gt hj)]
      exact hdone.complete
    · rw [link_names, hlinkArcs j (Nat.ne_of_gt hj)]
      exact hdone.sound
    · rw [hlinkArcs j (Nat.ne_of_gt hj)]
      exact hdone.nodup

/-- After the last successor. -/
theorem Linking.finish {acc : Bool × Numbering V L} [DecidableEq V] (h : Linking succ goal start d σ (succ d) acc) :
    Visited succ goal start d σ
      (σ.names.length, acc.2.finish σ.names.length (decide (d ≠ goal) && !acc.1)) where
  sound := by
    refine ⟨h.sound.nodup, h.sound.reached, ?_⟩
    intro k v hk hdead
    by_cases hsrc : k = σ.names.length
    · subst hsrc
      simp only [Numbering.finish, update_self, Bool.and_eq_true, decide_eq_true_eq,
        Bool.not_eq_true'] at hdead
      obtain rfl : v = d := Option.mem_unique hk h.name
      intro hreach
      obtain ⟨p, hp, hgoal⟩ := hreach.cases hdead.1
      exact h.flag hdead.2 p hp hgoal
    · have hsame : (acc.2.finish σ.names.length (decide (d ≠ goal) && !acc.1)).dead k = acc.2.dead k :=
        update_of_ne hsrc _ _
      exact h.sound.dead k v hk (hsame ▸ hdead)
  kept := ⟨h.kept.names, h.kept.arcs, fun k hk =>
    (update_of_ne (Nat.ne_of_lt hk) _ _).trans (h.kept.dead k hk)⟩
  name := h.name
  done := by
    intro j v hj hv
    have hdone : Done succ goal acc.2 j (succ v) := by
      rcases Nat.lt_or_eq_of_le hj with hlt | rfl
      · exact h.done j v hlt hv
      · obtain rfl : v = d := Option.mem_unique hv h.name
        exact h.here
    exact ⟨hdone.complete, hdone.sound, hdone.nodup⟩

/-! ## The search -/

section Search

/-- What each turn of the loop keeps. -/
theorem links_induction {explore : V → Numbering V L → Option (Nat × Numbering V L)} {src : Nat} {l : List (L × V)}
    {P : List (L × V) → Bool × Numbering V L → Prop}
    (hstep : ∀ ps p acc r, p ∈ l → P ps acc → explore p.2 acc.2 = some r → P (ps ++ [p]) (link src p.1 acc.1 r)) :
    ∀ {qs ps : List (L × V)} {acc acc' : Bool × Numbering V L}, ps ++ qs = l → P ps acc →
      links explore src qs acc = some acc' → P l acc'
  | [], ps, acc, acc', hps, h, hrun => by
    rw [append_nil] at hps
    subst hps
    obtain rfl : acc = acc' := Option.some.inj hrun
    exact h
  | p :: qs, ps, acc, acc', hps, h, hrun => by
    unfold links at hrun
    rw [foldlM_cons] at hrun
    obtain ⟨mid, hmid, hrun⟩ := Option.bind_eq_some_iff.1 hrun
    obtain ⟨r, hr, rfl⟩ := Option.map_eq_some_iff.1 hmid
    refine links_induction hstep ?_ (hstep ps p acc r (hps ▸ mem_append_right _ mem_cons_self) h hr) hrun
    rw [append_assoc]
    exact hps

variable [DecidableEq V]

/-- **What one call of the search does.** -/
theorem visit_visited : ∀ {fuel : Nat} {d : V} {σ : Numbering V L} {r : Nat × Numbering V L},
    Sound succ goal start σ → Reaches succ start d → visit succ goal fuel d σ = some r →
    Visited succ goal start d σ r := by
  have hfound : ∀ {d : V} {σ : Numbering V L} {k : Nat}, Sound succ goal start σ → σ.names.idxOf? d = some k →
      Visited succ goal start d σ (k, σ) := by
    intro d σ k h hk
    refine ⟨h, .refl _ _, ?_, ?_⟩
    · obtain ⟨hlt, hname, -⟩ := idxOf?_eq_some_iff.1 hk
      rw [getElem?_eq_getElem hlt, hname]
    · intro j v hj hv
      have := (List.getElem?_eq_some_iff.1 hv).1
      simp at this
      omega
  intro fuel
  induction fuel with
  | zero =>
    intro d σ r h _ hrun
    obtain ⟨k, hk, rfl⟩ := Option.map_eq_some_iff.1 hrun
    exact hfound h hk
  | succ fuel ih =>
    intro d σ r h hreach hrun
    unfold visit at hrun
    cases hk : σ.names.idxOf? d with
    | some k =>
      rw [hk] at hrun
      obtain rfl : (k, σ) = r := Option.some.inj hrun
      exact hfound h hk
    | none =>
      rw [hk] at hrun
      obtain ⟨acc, hacc, rfl⟩ := Option.map_eq_some_iff.1 hrun
      have hd : d ∉ σ.names := idxOf?_eq_none_iff.1 hk
      have hlinking : Linking succ goal start d σ (succ d) acc :=
        links_induction (fun _ _ _ _ hp hl hr => hl.step (ih hl.sound (hreach.tail hp) hr)) (nil_append _)
          (Linking.begin h hd hreach) hacc
      exact hlinking.finish

/-- **The search ends**: fuel for every state that is not numbered is enough. -/
theorem visit_isSome (goal : V) {U : Finset V} (hU : ∀ v ∈ U, ∀ p ∈ succ v, p.2 ∈ U) :
    ∀ {fuel : Nat} {d : V} {σ : Numbering V L}, σ.names.Nodup → (∀ v ∈ σ.names, v ∈ U) → d ∈ U →
      U.card ≤ σ.names.length + fuel →
      ∃ r, visit succ goal fuel d σ = some r ∧ r.2.names.Nodup ∧ (∀ v ∈ r.2.names, v ∈ U) ∧
        σ.names.length ≤ r.2.names.length := by
  intro fuel
  induction fuel with
  | zero =>
    intro d σ hnodup hin hd hcard
    have hmem : d ∈ σ.names := by
      by_contra hnot
      have hle : (d :: σ.names).length ≤ U.card := by
        rw [← toFinset_card_of_nodup (nodup_cons.2 ⟨hnot, hnodup⟩)]
        apply Finset.card_le_card
        intro v hv
        rcases mem_cons.1 (mem_toFinset.1 hv) with rfl | hv
        · exact hd
        · exact hin v hv
      simp at hle
      omega
    obtain ⟨k, hk⟩ := Option.ne_none_iff_exists'.1 (mt idxOf?_eq_none_iff.1 (not_not.2 hmem))
    refine ⟨(k, σ), ?_, hnodup, hin, Nat.le_refl _⟩
    unfold visit
    rw [hk]
    rfl
  | succ fuel ih =>
    intro d σ hnodup hin hd hcard
    unfold visit
    cases hk : σ.names.idxOf? d with
    | some k => exact ⟨(k, σ), rfl, hnodup, hin, Nat.le_refl _⟩
    | none =>
      have hnot : d ∉ σ.names := idxOf?_eq_none_iff.1 hk
      have hloop : ∀ (qs : List (L × V)) (acc : Bool × Numbering V L), (∀ p ∈ qs, p.2 ∈ U) → acc.2.names.Nodup →
          (∀ v ∈ acc.2.names, v ∈ U) → U.card ≤ acc.2.names.length + fuel →
          ∃ acc', links (visit succ goal fuel) σ.names.length qs acc = some acc' ∧ acc'.2.names.Nodup ∧
            (∀ v ∈ acc'.2.names, v ∈ U) ∧ acc.2.names.length ≤ acc'.2.names.length := by
        intro qs
        induction qs with
        | nil => exact fun acc _ hn hi _ => ⟨acc, rfl, hn, hi, Nat.le_refl _⟩
        | cons p qs ihqs =>
          intro acc hqs hn hi hc
          obtain ⟨r, hr, hrn, hri, hrl⟩ := ih hn hi (hqs p (mem_cons_self ..)) hc
          have hnames : (link σ.names.length p.1 acc.1 r).2.names = r.2.names := link_names _
          obtain ⟨acc', hacc', hn', hi', hl'⟩ := ihqs (link σ.names.length p.1 acc.1 r)
            (fun q hq => hqs q (mem_cons_of_mem _ hq)) (hnames ▸ hrn) (hnames ▸ hri)
            (by rw [hnames]; omega)
          refine ⟨acc', ?_, hn', hi', by rw [hnames] at hl'; omega⟩
          unfold links
          rw [foldlM_cons, hr]
          exact hacc'
      have hpush : (σ.push d).names.length = σ.names.length + 1 := by simp [Numbering.push]
      obtain ⟨acc', hacc', hn', hi', hl'⟩ := hloop (succ d) (false, σ.push d) (hU d hd)
        (by
          refine nodup_append.2 ⟨hnodup, nodup_singleton d, ?_⟩
          intro v hv w hw heq
          exact hnot (mem_singleton.1 hw ▸ heq ▸ hv))
        (by
          intro v hv
          rcases mem_append.1 hv with hv | hv
          · exact hin v hv
          · exact mem_singleton.1 hv ▸ hd)
        (by rw [hpush]; omega)
      refine ⟨(σ.names.length, acc'.2.finish σ.names.length (decide (d ≠ goal) && !acc'.1)), ?_, hn', hi', ?_⟩
      · rw [hacc']
        rfl
      · rw [hpush] at hl'
        show σ.names.length ≤ acc'.2.names.length
        omega

/-- A search from nothing: every state it met is done. -/
structure Explored (succ : V → List (L × V)) (goal start : V) (σ : Numbering V L) : Prop where
  sound : Sound succ goal start σ
  done : ∀ j v, σ.names[j]? = some v → Done succ goal σ j (succ v)
  first : σ.names[0]? = some start

theorem Explored.of_visit {fuel : Nat}
    (h : visit succ goal fuel start .empty = some r) : r.1 = 0 ∧ Explored succ goal start r.2 := by
  have hsound : Sound succ goal start (.empty : Numbering V L) := by
    refine ⟨nodup_nil, ?_, ?_⟩
    · intro v hv
      cases hv
    · intro k v hk
      cases hk
  have hvisited := visit_visited hsound (Reaches.refl start) h
  have hzero : r.1 = 0 := by
    cases fuel with
    | zero => cases h
    | succ fuel =>
      obtain ⟨acc, -, rfl⟩ := Option.map_eq_some_iff.1 h
      rfl
  exact ⟨hzero, hvisited.sound, fun j v hv => hvisited.done j v (Nat.zero_le _) hv, hzero ▸ hvisited.name⟩

end Search

/-! ## Trails and walks -/

section Trails

variable (h : Explored succ goal start σ)

include h

variable {v w : V}

/-- What can be reached from a numbered state is numbered. -/
theorem Explored.closed (hv : v ∈ σ.names) (hw : Reaches succ v w) : w ∈ σ.names := by
  obtain ⟨es, hes⟩ := hw
  induction hes with
  | nil => exact hv
  | cons hmem _ ih =>
    obtain ⟨k, hk⟩ := mem_iff_getElem?.1 hv
    obtain ⟨j, hj, -⟩ := (h.done k _ hk).complete _ hmem
    exact ih (mem_of_getElem? hj)

theorem Explored.goal_mem : goal ∈ σ.names ↔ Reaches succ start goal := by
  constructor
  · exact h.sound.reached goal
  · exact h.closed (mem_of_getElem? h.first)

variable {k : Nat}

theorem Explored.reaches_of_trail {j : Nat} {as : List (Link L)} (htrail : Trail σ.arcs k as j)
    (hk : σ.names[k]? = some v) (hj : σ.names[j]? = some w) : Reaches succ v w := by
  induction htrail generalizing v with
  | nil k =>
    obtain rfl : v = w := Option.mem_unique hk hj
    exact .refl v
  | cons hmem _ ih =>
    obtain ⟨-, u, hu, hsucc⟩ := (h.done _ v hk).sound _ hmem
    exact ((Reaches.refl v).tail hsucc).trans (ih hu hj)

end Trails

/-- The step a link stands for. -/
def edgeOf (name : Nat → V) (a : Link L) : Edge V L := ⟨name a.src, a.label, name a.dest⟩

/-- The name of a state that is numbered. -/
def nameOf (σ : Numbering V L) (start : V) (k : Nat) : V := σ.names.getD k start

theorem nameOf_eq {k : Nat} {v : V} (hk : σ.names[k]? = some v) : σ.nameOf start k = v := by
  rw [nameOf, getD_eq_getElem?_getD, hk]
  rfl

/-- The links on the way to a state that reaches the goal are all there. -/
theorem Explored.trail_of_walk (h : Explored succ goal start σ) {es : List (Edge V L)} {v w : V} (hwalk : Walk succ v es w)
    (hw : Reaches succ w goal) {k j : Nat} (hk : σ.names[k]? = some v) (hj : σ.names[j]? = some w) :
    ∃ as, Trail σ.arcs k as j ∧ as.map (edgeOf (σ.nameOf start)) = es := by
  induction hwalk generalizing k with
  | nil v =>
    obtain rfl : k = j := by
      apply (getElem?_inj (List.getElem?_eq_some_iff.1 hk).1 h.sound.nodup).1
      rw [hk, hj]
    exact ⟨[], .nil k, rfl⟩
  | cons hmem hrest ih =>
    obtain ⟨i, hi, hlink⟩ := (h.done k _ hk).complete _ hmem
    obtain ⟨as, has, rfl⟩ := ih hw hi hj
    refine ⟨⟨k, i, _⟩ :: as, .cons (hlink (Reaches.trans ⟨_, hrest⟩ hw)) has, ?_⟩
    rw [map_cons, edgeOf, nameOf_eq hk, nameOf_eq hi]

/-! ## Listed graphs -/

/-- The links of a state of a listed graph. -/
def arcsOf (g : List (List (Link L))) (k : Nat) : List (Link L) := g.getD k []

theorem arcsOf_eq_nil {g : List (List (Link L))} {k : Nat} (hk : ¬ k < g.length) : arcsOf g k = [] := by
  unfold arcsOf
  rw [getD_eq_getElem?_getD, getElem?_eq_none (Nat.le_of_not_lt hk)]
  rfl

/-- The links are steps of the search. -/
def Steps (succ : V → List (L × V)) (name : Nat → V) (g : List (List (Link L))) : Prop :=
  ∀ k, ∀ a ∈ arcsOf g k, a.src = k ∧ a.dest < g.length ∧ (a.label, name a.dest) ∈ succ (name k)

section Steps

variable {name : Nat → V} {g : List (List (Link L))} (h : Steps succ name g)

include h

variable {k i j : Nat} {as bs : List (Link L)}

theorem Steps.walk_of_trail (htrail : Trail (arcsOf g) k as j) :
    Walk succ (name k) (as.map (edgeOf name)) (name j) := by
  induction htrail with
  | nil k => exact .nil _
  | cons hmem _ ih =>
    obtain ⟨hsrc, -, hstep⟩ := h _ _ hmem
    rw [map_cons, edgeOf, hsrc]
    exact .cons hstep ih

/-- A trail is told by its steps. -/
theorem Steps.trail_inj (hname : ∀ i < g.length, ∀ j < g.length, name i = name j → i = j) (ha : Trail (arcsOf g) k as i)
    (hb : Trail (arcsOf g) k bs j) (heq : as.map (edgeOf name) = bs.map (edgeOf name)) : as = bs := by
  induction ha generalizing bs with
  | nil k =>
    cases hb with
    | nil => rfl
    | cons _ _ => cases heq
  | @cons k _ a as hmem _ ih =>
    cases hb with
    | nil => cases heq
    | @cons _ _ b bs hmem' hrest' =>
      obtain ⟨hedge, hrest⟩ := List.cons.inj heq
      obtain ⟨hsrc, hdest, -⟩ := h k a hmem
      obtain ⟨hsrc', hdest', -⟩ := h k b hmem'
      have hlabel : a.label = b.label := congrArg Edge.label hedge
      have hends : a.dest = b.dest := hname _ hdest _ hdest' (congrArg Edge.dest hedge)
      obtain rfl : a = b := by
        cases a
        cases b
        simp only at hsrc hsrc' hlabel hends
        rw [hsrc, hsrc', hlabel, hends]
      rw [ih hrest' hrest]

end Steps

variable {i j : Nat}

/-! ## Taking the dead states out -/

/-- The number a state has when those before it that are dead are gone. -/
def newIndex (dead : Nat → Bool) (k : Nat) : Option Nat :=
  if dead k then none else some (((range k).filter fun i => !dead i).length)

/-- A link with its ends renumbered, if its destination is still there. -/
def rewriteLink (dead : Nat → Bool) (a : Link L) : Option (Link L) :=
  (newIndex dead a.dest).map fun dest => ⟨(newIndex dead a.src).getD 0, dest, a.label⟩

/-- The links of the states that are left. -/
def prune (σ : Numbering V L) : List (List (Link L)) :=
  ((range σ.names.length).filter fun k => !σ.dead k).map fun k => (σ.arcs k).filterMap (rewriteLink σ.dead)

/-- The links of all states. -/
def graph (σ : Numbering V L) : List (List (Link L)) := (range σ.names.length).map σ.arcs

variable (σ k) in
theorem arcsOf_graph :
    arcsOf σ.graph k = if k < σ.names.length then σ.arcs k else [] := by
  unfold arcsOf graph
  rw [getD_eq_getElem?_getD, getElem?_map]
  split
  · rename_i hk
    rw [getElem?_range hk]
    rfl
  · rename_i hk
    rw [getElem?_eq_none (by simpa using hk)]
    rfl

variable {dead : Nat → Bool}

theorem newIndex_eq_some (h : newIndex dead k = some i) :
    dead k = false ∧ ((range k).filter fun i => !dead i).length = i := by
  unfold newIndex at h
  split at h
  · cases h
  · rename_i hdead
    exact ⟨by simpa using hdead, Option.some.inj h⟩

theorem getElem?_kept (hk : k < n) (h : newIndex dead k = some i) :
    ((range n).filter fun k => !dead k)[i]? = some k := by
  obtain ⟨hdead, rfl⟩ := newIndex_eq_some h
  obtain ⟨m, rfl⟩ := Nat.exists_eq_add_of_lt hk
  have hsplit : range (k + m + 1) = range k ++ k :: (range m).map (fun i => k + (i + 1)) := by
    rw [show k + m + 1 = k + (m + 1) by omega, range_add, range_succ_eq_map, map_cons, map_map]
    rfl
  rw [hsplit, filter_append, filter_cons_of_pos (by simp [hdead]), getElem?_append_right (Nat.le_refl _),
    Nat.sub_self]
  rfl

theorem arcsOf_prune (hk : k < σ.names.length) (h : newIndex σ.dead k = some i) :
    arcsOf σ.prune i = (σ.arcs k).filterMap (rewriteLink σ.dead) := by
  unfold arcsOf prune
  rw [getD_eq_getElem?_getD, getElem?_map, getElem?_kept hk h]
  rfl

theorem newIndex_inj (hj : newIndex dead j = some i) (hk : newIndex dead k = some i) : j = k := by
  have h1 := getElem?_kept (n := max j k + 1) (by omega) hj
  have h2 := getElem?_kept (n := max j k + 1) (by omega) hk
  exact Option.mem_unique h1 h2

section Prune

variable (h : Explored succ goal start σ)

include h

variable {k : Nat}

theorem Explored.dest_lt (hk : k < σ.names.length) {a : Link L} (ha : a ∈ σ.arcs k) :
    a.src = k ∧ a.dest < σ.names.length := by
  obtain ⟨hsrc, w, hw, -⟩ := (h.done k _ (getElem?_eq_getElem hk)).sound a ha
  exact ⟨hsrc, (List.getElem?_eq_some_iff.1 hw).1⟩

variable {j : Nat}

/-- The graph as a list has the same trails. -/
theorem Explored.trail_graph {as : List (Link L)} (hk : k < σ.names.length) :
    Trail (arcsOf σ.graph) k as j ↔ Trail σ.arcs k as j := by
  induction as generalizing k with
  | nil =>
    constructor
    · intro ht
      cases ht
      exact .nil _
    · intro ht
      cases ht
      exact .nil _
  | cons a as ih =>
    have harcs : arcsOf σ.graph k = σ.arcs k := by rw [arcsOf_graph, if_pos hk]
    constructor
    · intro ht
      cases ht with
      | cons hmem hrest =>
        rw [harcs] at hmem
        exact .cons hmem ((ih (h.dest_lt hk hmem).2).1 hrest)
    · intro ht
      cases ht with
      | cons hmem hrest => exact .cons (harcs ▸ hmem) ((ih (h.dest_lt hk hmem).2).2 hrest)

theorem Explored.graph_steps : Steps succ (σ.nameOf start) σ.graph := by
  intro k a ha
  rw [arcsOf_graph] at ha
  split at ha
  · rename_i hk
    obtain ⟨hsrc, w, hw, hmem⟩ := (h.done k _ (getElem?_eq_getElem hk)).sound a ha
    refine ⟨hsrc, ?_, ?_⟩
    · unfold graph
      simpa using (List.getElem?_eq_some_iff.1 hw).1
    · rw [nameOf_eq hw, nameOf_eq (getElem?_eq_getElem hk)]
      exact hmem
  · cases ha

theorem Explored.nameOf_inj {i : Nat} (hi : i < σ.names.length) (hj : j < σ.names.length)
    (heq : σ.nameOf start i = σ.nameOf start j) : i = j := by
  rw [nameOf_eq (getElem?_eq_getElem hi), nameOf_eq (getElem?_eq_getElem hj)] at heq
  exact h.sound.nodup.getElem_inj_iff.1 heq

/-- **The links have the walks to the goal**, one trail for each. -/
theorem Explored.graph_bijOn (hj : σ.names[j]? = some goal) : Set.BijOn (List.map (edgeOf (σ.nameOf start)))
    {as | Trail (arcsOf σ.graph) 0 as j} {es | Walk succ start es goal} := by
  refine ⟨?_, ?_, ?_⟩
  · intro as has
    have hwalk := h.graph_steps.walk_of_trail has
    rwa [nameOf_eq h.first, nameOf_eq hj] at hwalk
  · intro as has bs hbs heq
    refine h.graph_steps.trail_inj ?_ has hbs heq
    have hlength : σ.graph.length = σ.names.length := by
      unfold graph
      rw [length_map, length_range]
    rw [hlength]
    exact fun i hi j hj => h.nameOf_inj hi hj
  · intro es hes
    obtain ⟨as, has, rfl⟩ := h.trail_of_walk hes (.refl goal) h.first hj
    exact ⟨as, (h.trail_graph (List.getElem?_eq_some_iff.1 h.first).1).2 has, rfl⟩

theorem Explored.graph_nodup (hsucc : ∀ v, (succ v).Nodup) (k : Nat) : (arcsOf σ.graph k).Nodup := by
  rw [arcsOf_graph]
  split
  · rename_i hk
    exact (h.done k _ (getElem?_eq_getElem hk)).nodup (hsucc _)
  · exact nodup_nil

omit h

/-- The name of a state that is left. -/
def keptName (σ : Numbering V L) (start : V) (i : Nat) : V :=
  σ.nameOf start (((range σ.names.length).filter fun k => !σ.dead k).getD i 0)

theorem keptName_eq {i : Nat} (hk : k < σ.names.length) (hi : newIndex σ.dead k = some i) :
    σ.keptName start i = σ.nameOf start k := by
  rw [keptName, getD_eq_getElem?_getD, getElem?_kept hk hi]
  rfl

/-- What an index of the pruned graph stands for. -/
theorem index_prune {i : Nat} (hi : i < σ.prune.length) :
    ∃ k, k < σ.names.length ∧ newIndex σ.dead k = some i := by
  unfold prune at hi
  rw [length_map] at hi
  obtain ⟨k, hk⟩ : ∃ k, ((range σ.names.length).filter fun k => !σ.dead k)[i]? = some k :=
    ⟨_, getElem?_eq_getElem hi⟩
  have hmem := mem_filter.1 (mem_of_getElem? hk)
  have hlt := mem_range.1 hmem.1
  have hdead : σ.dead k = false := by simpa using hmem.2
  have hnew : newIndex σ.dead k = some (((range k).filter fun i => !σ.dead i).length) := by
    simp [newIndex, hdead]
  refine ⟨k, hlt, ?_⟩
  rw [hnew]
  have hsame := getElem?_kept hlt hnew
  have hnodup : ((range σ.names.length).filter fun k => !σ.dead k).Nodup := nodup_range.filter _
  congr 1
  apply (getElem?_inj (List.getElem?_eq_some_iff.1 hsame).1 hnodup).1
  rw [hsame, hk]

include h

/-- A trail to a state that reaches the goal goes through no dead state. -/
theorem Explored.prune_of_trail {bs : List (Link L)} (htrail : Trail σ.arcs k bs j) {v w : V}
    (hk : σ.names[k]? = some v) (hj : σ.names[j]? = some w) (hw : Reaches succ w goal) :
    ∃ i i' as, newIndex σ.dead k = some i ∧ newIndex σ.dead j = some i' ∧ Trail (arcsOf σ.prune) i as i' ∧
      as.map (edgeOf (σ.keptName start)) = bs.map (edgeOf (σ.nameOf start)) := by
  have halive : ∀ {k : Nat} {v : V}, σ.names[k]? = some v → Reaches succ v goal → ∃ i, newIndex σ.dead k = some i := by
    intro k v hk hreach
    have hdead : σ.dead k = false := by
      by_contra hd
      exact h.sound.dead k v hk (by simpa using hd) hreach
    exact ⟨((range k).filter fun i => !σ.dead i).length, by simp [newIndex, hdead]⟩
  induction htrail generalizing v with
  | nil k =>
    obtain ⟨i, hi⟩ := halive hj hw
    exact ⟨i, i, [], hi, hi, .nil i, rfl⟩
  | @cons k j b bs hmem hrest ih =>
    have hkl := (List.getElem?_eq_some_iff.1 hk).1
    obtain ⟨hsrc, u, hu, hsucc⟩ := (h.done k v hk).sound b hmem
    obtain ⟨i, i', as, hi, hi', has, hedges⟩ := ih hu hj
    obtain ⟨i0, hi0⟩ := halive hk ((h.reaches_of_trail (.cons hmem hrest) hk hj).trans hw)
    refine ⟨i0, i', ⟨i0, i, b.label⟩ :: as, hi0, hi', .cons ?_ has, ?_⟩
    · rw [arcsOf_prune hkl hi0]
      refine mem_filterMap.2 ⟨b, hmem, ?_⟩
      rw [rewriteLink, hi, hsrc, hi0]
      rfl
    · rw [map_cons, map_cons, hedges, edgeOf, edgeOf, keptName_eq hkl hi0,
        keptName_eq (List.getElem?_eq_some_iff.1 hu).1 hi, hsrc]

theorem Explored.prune_nodup (hsucc : ∀ v, (succ v).Nodup) (i : Nat) : (arcsOf σ.prune i).Nodup := by
  by_cases hi : i < σ.prune.length
  · obtain ⟨k, hk, hnew⟩ := index_prune hi
    rw [arcsOf_prune hk hnew, Nodup, pairwise_filterMap]
    refine ((h.done k _ (getElem?_eq_getElem hk)).nodup (hsucc _)).imp_of_mem ?_
    intro a b ha hb hne a' ha' b' hb' heq
    obtain ⟨m, hm, rfl⟩ := Option.map_eq_some_iff.1 ha'
    obtain ⟨n, hn, rfl⟩ := Option.map_eq_some_iff.1 hb'
    obtain ⟨-, rfl, hlabel⟩ := Link.mk.inj heq
    apply hne
    have hdest := newIndex_inj hm hn
    have hsrc := (h.dest_lt hk ha).1.trans (h.dest_lt hk hb).1.symm
    cases a
    simp only at hdest hsrc hlabel
    rw [hdest, hsrc, hlabel]
  · rw [arcsOf_eq_nil hi]
    exact nodup_nil

theorem Explored.prune_steps : Steps succ (σ.keptName start) σ.prune := by
  intro i a ha
  have hi : i < σ.prune.length := by
    by_contra hge
    rw [arcsOf_eq_nil hge] at ha
    cases ha
  have hlength : σ.prune.length = ((range σ.names.length).filter fun k => !σ.dead k).length := by
    unfold prune
    rw [length_map]
  obtain ⟨k, hk, hnew⟩ := index_prune hi
  rw [arcsOf_prune hk hnew] at ha
  obtain ⟨b, hb, hrewrite⟩ := mem_filterMap.1 ha
  obtain ⟨j, hj, rfl⟩ := Option.map_eq_some_iff.1 hrewrite
  obtain ⟨hsrc, w, hw, hmem⟩ := (h.done k _ (getElem?_eq_getElem hk)).sound b hb
  have hdest := (List.getElem?_eq_some_iff.1 hw).1
  refine ⟨?_, ?_, ?_⟩
  · rw [hsrc, hnew]
    rfl
  · rw [hlength]
    exact (List.getElem?_eq_some_iff.1 (getElem?_kept hdest hj)).1
  · rw [keptName_eq hk hnew, keptName_eq hdest hj, nameOf_eq hw, nameOf_eq (getElem?_eq_getElem hk)]
    exact hmem

/-- **Pruning keeps the walks to the goal.** -/
theorem Explored.prune_bijOn (hj : σ.names[j]? = some goal) (hreach : Reaches succ start goal) :
    newIndex σ.dead 0 = some 0 ∧ ∃ j', newIndex σ.dead j = some j' ∧
      Set.BijOn (List.map (edgeOf (σ.keptName start))) {as | Trail (arcsOf σ.prune) 0 as j'}
        {es | Walk succ start es goal} := by
  obtain ⟨es0, hes0⟩ := hreach
  obtain ⟨bs0, hbs0, -⟩ := h.trail_of_walk hes0 (.refl goal) h.first hj
  obtain ⟨i, j', -, hi, hj', -, -⟩ := h.prune_of_trail hbs0 h.first hj (.refl goal)
  obtain rfl : i = 0 := (newIndex_eq_some hi).2.symm
  have hlen := (List.getElem?_eq_some_iff.1 h.first).1
  refine ⟨hi, j', hj', ?_, ?_, ?_⟩
  · intro as has
    have hwalk := h.prune_steps.walk_of_trail has
    rwa [keptName_eq hlen hi, keptName_eq (List.getElem?_eq_some_iff.1 hj).1 hj', nameOf_eq h.first,
      nameOf_eq hj] at hwalk
  · intro as has bs hbs heq
    refine h.prune_steps.trail_inj ?_ has hbs heq
    intro i hi m hm heq
    obtain ⟨k, hk, hnew⟩ := index_prune hi
    obtain ⟨l, hl, hnew'⟩ := index_prune hm
    rw [keptName_eq hk hnew, keptName_eq hl hnew'] at heq
    obtain rfl := h.nameOf_inj hk hl heq
    exact Option.mem_unique hnew hnew'
  · intro es hes
    obtain ⟨bs, hbs, rfl⟩ := h.trail_of_walk hes (.refl goal) h.first hj
    obtain ⟨i, i', as, hi1, hi', has, heq⟩ := h.prune_of_trail hbs h.first hj (.refl goal)
    obtain rfl : i = 0 := Option.mem_unique hi1 hi
    obtain rfl : i' = j' := Option.mem_unique hi' hj'
    exact ⟨as, has, heq⟩

end Prune

end Numbering

end Sbmt.Lib
