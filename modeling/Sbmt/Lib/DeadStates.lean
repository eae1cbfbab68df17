import Sbmt.Lib.Numbering
/-!
# Which states a search calls dead

`Numbering.visit` calls a state dead as it comes back from its successors.  One of them that is being explored counts as
alive, so a state on a cycle never dies, whether it reaches the goal or not.  The dead states are those from which
every walk comes to an end before it comes to the goal (`Hopeless`): `dead_iff`.  So every state that is left reaches
the goal if no cycle is out of the goal's reach (`hopeless_of_acyclic`), and lies on a trail to it (`prune_useful_iff`).
-/

namespace Sbmt.Lib

open List Function Option

variable {V L : Type*} {succ : V → List (L × V)} {goal : V}

/-- Every walk ends, and none at the goal. -/
inductive Hopeless (succ : V → List (L × V)) (goal : V) : V → Prop
  | mk {v : V} (hne : v ≠ goal) (hsucc : ∀ p ∈ succ v, Hopeless succ goal p.2) : Hopeless succ goal v

namespace Hopeless

variable {v : V}

/-- A walk that ends does not go around. -/
theorem no_cycle (h : Hopeless succ goal v) : ∀ p ∈ succ v, ¬ Reaches succ p.2 v := by
  induction h with
  | @mk v _ _ ih =>
    intro p hp hback
    by_cases heq : p.2 = v
    · exact ih p hp p (heq.symm ▸ hp) (.refl p.2)
    · obtain ⟨q, hq, hqv⟩ := hback.cases heq
      exact ih p hp q hq (hqv.tail hp)

end Hopeless

/-- Where finitely many states can be reached and no cycle is among them, every walk ends. -/
theorem hopeless_of_acyclic {U : Finset V} (hU : ∀ v ∈ U, ∀ p ∈ succ v, p.2 ∈ U) {v : V} (hv : v ∈ U)
    (hgoal : ¬ Reaches succ v goal) (hcycle : ∀ w, Reaches succ v w → ∀ p ∈ succ w, ¬ Reaches succ p.2 w) :
    Hopeless succ goal v := by
  let Below := {w // w ∈ U ∧ Reaches succ v w}
  let next : Below → Below → Prop := fun a b => ∃ p ∈ succ b.1, Reaches succ p.2 a.1
  have : IsTrans Below next := ⟨fun a b c ⟨p, hp, hpa⟩ ⟨q, hq, hqb⟩ => ⟨q, hq, (hqb.tail hp).trans hpa⟩⟩
  have : Std.Irrefl next := ⟨fun a ⟨p, hp, hpa⟩ => hcycle a.1 a.2.2 p hp hpa⟩
  have : Finite Below := Set.Finite.to_subtype (U.finite_toSet.subset fun _ hw => hw.1)
  have hwf : WellFounded next := Finite.wellFounded_of_trans_of_irrefl next
  have hall : ∀ a : Below, Hopeless succ goal a.1 := by
    intro a
    induction a using hwf.induction with
    | _ a ih =>
      obtain ⟨w, hw, hvw⟩ := a
      refine ⟨?_, ?_⟩
      · rintro rfl
        exact hgoal hvw
      · intro p hp
        exact ih ⟨p.2, hU w hw p hp, hvw.tail hp⟩ ⟨p, hp, .refl p.2⟩
  exact hall ⟨v, hv, .refl v⟩

namespace Numbering

/-- What is known of the dead states while the states `active` are being explored. -/
structure Marked (succ : V → List (L × V)) (goal : V) (active : Nat → Prop) (σ : Numbering V L) : Prop where
  hopeless : ∀ k v, σ.names[k]? = some v → σ.dead k = true → Hopeless succ goal v
  dead : ∀ k v, σ.names[k]? = some v → ¬ active k → Hopeless succ goal v → σ.dead k = true

variable {start d : V} {σ : Numbering V L} {active : Nat → Prop}

/-- The loop over the successors of `d`. -/
structure Marking (succ : V → List (L × V)) (goal d : V) (active : Nat → Prop) (ps : List (L × V))
    (acc : Bool × Numbering V L) : Prop where
  marked : Marked succ goal active acc.2
  kept : acc.1 = true → ¬ Hopeless succ goal d
  lost : acc.1 = false → ∀ p ∈ ps, Hopeless succ goal p.2

theorem Marked.push (h : Marked succ goal active σ) (d : V) :
    Marked succ goal (fun k => active k ∨ k = σ.names.length) (σ.push d) := by
  have hold : ∀ {k : Nat} {v : V}, (σ.push d).names[k]? = some v → k ≠ σ.names.length →
      σ.names[k]? = some v ∧ (σ.push d).dead k = σ.dead k := by
    intro k v hk hne
    have hlt : k < σ.names.length := by
      have hlen := (List.getElem?_eq_some_iff.mp hk).1
      simp only [Numbering.push, length_append, length_singleton] at hlen
      omega
    exact ⟨by rwa [Numbering.push, getElem?_append_left hlt] at hk, update_of_ne hne _ _⟩
  constructor
  · intro k v hk hdead
    by_cases hnew : k = σ.names.length
    · subst hnew
      have halive : (σ.push d).dead σ.names.length = false := update_self ..
      rw [halive] at hdead
      cases hdead
    · obtain ⟨hk', hsame⟩ := hold hk hnew
      exact h.hopeless k v hk' (hsame ▸ hdead)
  · intro k v hk hactive hhopeless
    obtain ⟨hk', hsame⟩ := hold hk fun hnew => hactive (.inr hnew)
    rw [hsame]
    exact h.dead k v hk' (fun ha => hactive (.inl ha)) hhopeless

/-- A successor that is being explored leads back to the state. -/
theorem Marking.step {ps : List (L × V)} {acc : Bool × Numbering V L} {p : L × V} {r : Nat × Numbering V L} {src : Nat}
    (h : Marking succ goal d active ps acc) (hr : Marked succ goal active r.2) (hname : r.2.names[r.1]? = some p.2)
    (hp : p ∈ succ d) (hback : ∀ k, active k → ∀ u, r.2.names[k]? = some u → Reaches succ u d) :
    Marking succ goal d active (ps ++ [p]) (link src p.1 acc.1 r) := by
  have hmarked : Marked succ goal active (link src p.1 acc.1 r).2 :=
    ⟨by rw [link_names, link_dead]; exact hr.hopeless, by rw [link_names, link_dead]; exact hr.dead⟩
  by_cases hdead : r.2.dead r.1 = true
  · have hflag : (link src p.1 acc.1 r).1 = acc.1 := by rw [link, if_pos hdead]
    refine ⟨hmarked, by rw [hflag]; exact h.kept, ?_⟩
    intro hlost q hq
    rw [hflag] at hlost
    rcases mem_append.mp hq with hq | hq
    · exact h.lost hlost q hq
    · rw [mem_singleton.mp hq]
      exact hr.hopeless r.1 p.2 hname hdead
  · have hflag : (link src p.1 acc.1 r).1 = true := by rw [link, if_neg hdead]
    refine ⟨hmarked, fun _ hd => ?_, fun hlost => by rw [hflag] at hlost; cases hlost⟩
    by_cases hactive : active r.1
    · exact hd.no_cycle p hp (hback r.1 hactive p.2 hname)
    · cases hd with
      | mk _ hsucc => exact hdead (hr.dead r.1 p.2 hname hactive (hsucc p hp))

theorem Marking.finish {acc : Bool × Numbering V L} [DecidableEq V] {src : Nat}
    (h : Marking succ goal d (fun k => active k ∨ k = src) (succ d) acc) (hname : acc.2.names[src]? = some d) :
    Marked succ goal active (acc.2.finish src (decide (d ≠ goal) && !acc.1)) := by
  constructor
  · intro k v hk hdead
    by_cases hsrc : k = src
    · subst hsrc
      simp only [Numbering.finish, update_self, Bool.and_eq_true, decide_eq_true_eq,
        Bool.not_eq_true'] at hdead
      obtain rfl : v = d := mem_unique hk hname
      exact .mk hdead.1 (h.lost hdead.2)
    · refine h.marked.hopeless k v hk ?_
      simpa only [Numbering.finish, update_of_ne hsrc] using hdead
  · intro k v hk hactive hhopeless
    by_cases hsrc : k = src
    · subst hsrc
      obtain rfl : v = d := mem_unique hk hname
      have hlost : acc.1 = false := Bool.eq_false_iff.mpr fun hkept => h.kept hkept hhopeless
      cases hhopeless with
      | mk hne _ => simp only [Numbering.finish, update_self, hlost, hne, ne_eq, not_false_eq_true,
          decide_true, Bool.not_false, Bool.and_self]
    · simp only [Numbering.finish, update_of_ne hsrc]
      exact h.marked.dead k v hk (fun ha => ha.elim hactive hsrc) hhopeless

section

variable [DecidableEq V]

/-- The loop, with the states that are being explored below it. -/
structure Turning (succ : V → List (L × V)) (goal start d : V) (active : Nat → Prop) (σ : Numbering V L) (ps : List (L × V))
    (acc : Bool × Numbering V L) : Prop where
  linking : Linking succ goal start d σ ps acc
  marking : Marking succ goal d active ps acc
  stack : ∀ k, active k → ∃ u, acc.2.names[k]? = some u ∧ Reaches succ u d

omit [DecidableEq V] in
theorem Turning.step {ps : List (L × V)} {acc : Bool × Numbering V L} {p : L × V} {r : Nat × Numbering V L}
    (h : Turning succ goal start d active σ ps acc) (hp : p ∈ succ d) (hvisited : Visited succ goal start p.2 acc.2 r)
    (hmarked : Marked succ goal active r.2) : Turning succ goal start d active σ (ps ++ [p]) (link σ.names.length p.1 acc.1 r) where
  linking := h.linking.step hvisited
  marking := h.marking.step hmarked hvisited.name hp fun k hk u hu => by
    obtain ⟨u', hu', hd⟩ := h.stack k hk
    obtain rfl : u = u' := mem_unique hu (hvisited.kept.name hu')
    exact hd
  stack k hk := by
    obtain ⟨u, hu, hd⟩ := h.stack k hk
    rw [link_names]
    exact ⟨u, hvisited.kept.name hu, hd⟩

theorem visit_marked {fuel : Nat} : ∀ {d : V} {σ : Numbering V L} {r : Nat × Numbering V L} {active : Nat → Prop},
    Sound succ goal start σ → Reaches succ start d → visit succ goal fuel d σ = some r → Marked succ goal active σ →
      (∀ k, active k → ∃ u, σ.names[k]? = some u ∧ Reaches succ u d) → Marked succ goal active r.2 := by
  induction fuel with
  | zero =>
    intro d σ r active _ _ hrun h _
    obtain ⟨k, _, rfl⟩ := map_eq_some_iff.1 hrun
    exact h
  | succ fuel ih =>
    intro d σ r active hsound hreach hrun h hactive
    unfold visit at hrun
    cases hk : σ.names.idxOf? d with
    | some k =>
      rw [hk] at hrun
      obtain rfl : (k, σ) = r := Option.some.inj hrun
      exact h
    | none =>
      rw [hk] at hrun
      obtain ⟨acc, hacc, rfl⟩ := map_eq_some_iff.1 hrun
      have hd : d ∉ σ.names := idxOf?_eq_none_iff.1 hk
      have hbegin := Linking.begin hsound hd hreach
      have hfresh : Marking succ goal d (fun k => active k ∨ k = σ.names.length) [] (false, σ.push d) :=
        ⟨h.push d, fun hkept => (by cases hkept), fun _ p hp => by cases hp⟩
      have hstack : ∀ k, active k ∨ k = σ.names.length → ∃ u, (σ.push d).names[k]? = some u ∧ Reaches succ u d := by
        rintro k (ha | rfl)
        · obtain ⟨u, hu, hud⟩ := hactive k ha
          exact ⟨u, hbegin.kept.name hu, hud⟩
        · exact ⟨d, hbegin.name, .refl d⟩
      have hturning : Turning succ goal start d (fun k => active k ∨ k = σ.names.length) σ (succ d) acc :=
        links_induction (fun _ p _ _ hp ht hr => by
          have hto := hreach.tail hp
          refine ht.step hp (visit_visited ht.linking.sound hto hr) (ih ht.linking.sound hto hr ht.marking.marked fun k hk => ?_)
          exact (ht.stack k hk).imp fun u hu => ⟨hu.1, hu.2.tail hp⟩) (nil_append _) ⟨hbegin, hfresh, hstack⟩ hacc
      exact hturning.marking.finish hturning.linking.name

/-- **A state is dead exactly when every walk from it ends before the goal.** -/
theorem dead_iff {fuel : Nat} {r : Nat × Numbering V L} (hrun : visit succ goal fuel start .empty = some r) {k : Nat}
    {v : V} (hk : r.2.names[k]? = some v) : r.2.dead k = true ↔ Hopeless succ goal v := by
  have hsound : Sound succ goal start (.empty : Numbering V L) :=
    ⟨nodup_nil, fun v hv => (by cases hv), fun k v hk => (by cases hk)⟩
  have hempty : Marked succ goal (fun _ => False) (.empty : Numbering V L) :=
    ⟨fun k v hk => (by cases hk), fun k v hk => by cases hk⟩
  have hmarked := visit_marked hsound (.refl start) hrun hempty fun k hk => hk.elim
  exact ⟨hmarked.hopeless k v hk, hmarked.dead k v hk not_false⟩

/-- **Every state that is left lies on a trail from the start to the goal exactly when every state that is not
hopeless reaches the goal.** -/
theorem prune_useful_iff {fuel : Nat} {r : Nat × Numbering V L} (hrun : visit succ goal fuel start .empty = some r)
    {j j' : Nat} (hj : r.2.names[j]? = some goal) (hj' : newIndex r.2.dead j = some j') :
    (∀ i < r.2.prune.length, ∃ as bs, Trail (arcsOf r.2.prune) 0 as i ∧ Trail (arcsOf r.2.prune) i bs j') ↔
      ∀ v, Reaches succ start v → ¬ Hopeless succ goal v → Reaches succ v goal := by
  obtain ⟨-, hexp⟩ := Explored.of_visit hrun
  constructor
  · intro huseful v hv hnot
    obtain ⟨k, hk⟩ := mem_iff_getElem?.1 (hexp.closed (mem_of_getElem? hexp.first) hv)
    have hlt := (List.getElem?_eq_some_iff.1 hk).1
    have halive : ¬ r.2.dead k = true := fun hdead => hnot ((dead_iff hrun hk).mp hdead)
    have hi : newIndex r.2.dead k = some ((range k).filter fun i => !r.2.dead i).length := if_neg halive
    have hlt' := (List.getElem?_eq_some_iff.1 (getElem?_kept hlt hi)).1
    obtain ⟨-, bs, -, hbs⟩ := huseful _ (by rw [prune, length_map]; exact hlt')
    have hwalk := hexp.prune_steps.walk_of_trail hbs
    rw [keptName_eq hlt hi, keptName_eq (List.getElem?_eq_some_iff.1 hj).1 hj', nameOf_eq hk, nameOf_eq hj] at hwalk
    exact ⟨_, hwalk⟩
  · intro hall i hi
    obtain ⟨k, hlt, hnew⟩ := index_prune hi
    have hk := getElem?_eq_getElem hlt
    have hnot : ¬ Hopeless succ goal r.2.names[k] := by
      intro hhopeless
      have hdead := (dead_iff hrun hk).mpr hhopeless
      rw [(newIndex_eq_some hnew).1] at hdead
      cases hdead
    have hstart := hexp.sound.reached _ (mem_of_getElem? hk)
    have hgoal := hall _ hstart hnot
    obtain ⟨ls, hls⟩ := hstart
    obtain ⟨ms, hms⟩ := hgoal
    obtain ⟨as, has, -⟩ := hexp.trail_of_walk hls ⟨ms, hms⟩ hexp.first hk
    obtain ⟨bs, hbs, -⟩ := hexp.trail_of_walk hms (.refl goal) hk hj
    obtain ⟨i0, i1, as', h0, h1, has', -⟩ := hexp.prune_of_trail has hexp.first hk ⟨ms, hms⟩
    obtain ⟨i2, i3, bs', h2, h3, hbs', -⟩ := hexp.prune_of_trail hbs hk hj (.refl goal)
    obtain rfl : i0 = 0 := (newIndex_eq_some h0).2.symm
    obtain rfl : i1 = i := mem_unique h1 hnew
    obtain rfl : i2 = i1 := mem_unique h2 hnew
    obtain rfl : i3 = j' := mem_unique h3 hj'
    exact ⟨as', bs', has', hbs'⟩

end

end Numbering

end Sbmt.Lib
