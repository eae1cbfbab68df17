import Mathlib

/-!
# Programs over a store of cells

A program that reads and writes the cells of a store one at a time, so that
several of them can be interleaved between any two accesses. `exec` runs one
alone; `pass` runs a list of them one after the other, each for the cell it is
named after and only where that cell is still blank.

`Confined x R p` says that `p` writes only the cell `x` and reads only cells in
`R`. Two results carry the interleaving proofs: a confined program does not see
cells outside `R` (`exec_update_frame`), so a pass over programs that do not
read each other's cells may compute every cell from the store the pass started
with (`pass_eq_of_settled`).
-/

namespace Sbmt.Lib

open List Function

variable {K V E : Type*}

/-- A program that accesses one cell at a time and may raise an error. -/
inductive CellProg (K V E : Type*) where
  | ret
  | throw (e : E)
  | read (k : K) (next : V → CellProg K V E)
  | write (k : K) (v : V) (next : CellProg K V E)

namespace CellProg

/-- `p` writes only the cell `x` and reads only cells in `R`. -/
def Confined (x : K) (R : K → Prop) : CellProg K V E → Prop
  | ret => True
  | throw _ => True
  | read k next => R k ∧ ∀ v, Confined x R (next v)
  | write k _ next => k = x ∧ Confined x R next

theorem Confined.mono {R' : K → Prop} (hR : ∀ k, R k → R' k) : ∀ {p : CellProg K V E}, Confined x R p → Confined x R' p
  | ret, _ => trivial
  | throw _, _ => trivial
  | read _ _, h => ⟨hR _ h.1, fun v => (h.2 v).mono hR⟩
  | write _ _ _, h => ⟨h.1, h.2.mono hR⟩

variable [DecidableEq K]

/-- The program run alone. -/
def exec : CellProg K V E → (K → V) → Except E (K → V)
  | ret, σ => .ok σ
  | throw e, _ => .error e
  | read k next, σ => exec (next (σ k)) σ
  | write k v next, σ => exec next (update σ k v)

variable {R : K → Prop} {x : K}

/-- A confined program changes its own cell only, and what it puts there depends
on that cell and on the cells it may read. -/
theorem exec_update_frame {σ τ : K → V} (hagree : ∀ k, R k → σ k = τ k)
    (hx : ¬ R x) : ∀ {p : CellProg K V E} {a : V} {τ' : K → V}, Confined x R p →
    exec p (update τ x a) = .ok τ' →
    ∃ v, τ' = update τ x v ∧
      exec p (update σ x a) = .ok (update σ x v) := by
  intro p
  induction p with
  | ret =>
    intro a τ' _ h
    simp only [exec, Except.ok.injEq] at h ⊢
    exact ⟨a, h.symm, rfl⟩
  | throw e =>
    intro a τ' _ h
    simp [exec] at h
  | read k next ih =>
    intro a τ' hp h
    have hk : k ≠ x := fun hkx => hx (hkx ▸ hp.1)
    simp only [exec, update_of_ne hk, hagree k hp.1] at h ⊢
    exact ih (τ k) (hp.2 (τ k)) h
  | write k v next ih =>
    intro a τ' hp h
    obtain ⟨rfl, hp⟩ := hp
    simp only [exec, update_idem] at h ⊢
    exact ih hp h

/-- A confined program changes its own cell only. -/
theorem exec_confined (hx : ¬ R x) {p : CellProg K V E} (hp : Confined x R p)
    {σ τ : K → V} (h : exec p σ = .ok τ) : ∃ v, τ = update σ x v := by
  have hself : exec p (update σ x (σ x)) = .ok τ := by
    rw [update_eq_self]
    exact h
  obtain ⟨v, hv, -⟩ := exec_update_frame (fun _ _ => rfl) hx hp hself
  exact ⟨v, hv⟩

end CellProg

section Pass

variable [DecidableEq K]

/-- One pass over the keys `ks`: run the program of each key whose cell is blank
at that moment. The second component lists the keys whose program was run. -/
def pass (blank : V → Bool) (body : K → CellProg K V E) :
    List K → (K → V) → Except E ((K → V) × List K)
  | [], σ => .ok (σ, [])
  | k :: ks, σ =>
    if blank (σ k) then
      (body k).exec σ >>= fun σ' =>
        (pass blank body ks σ').map fun r => (r.1, k :: r.2)
    else pass blank body ks σ

variable {σ : K → V} {body : K → CellProg K V E} {blank : V → Bool}

/-- What the first key of a pass can have done. -/
theorem pass_cons_ok {k : K} {ks : List K} {τ : K → V} {log : List K} (h : pass blank body (k :: ks) σ = .ok (τ, log)) :
    (blank (σ k) = true ∧ ∃ σ' log', (body k).exec σ = .ok σ' ∧ pass blank body ks σ' = .ok (τ, log') ∧
      log = k :: log') ∨ (blank (σ k) = false ∧ pass blank body ks σ = .ok (τ, log)) := by
  unfold pass at h
  by_cases hb : blank (σ k) = true
  · rw [if_pos hb] at h
    left
    rcases hrun : (body k).exec σ with e | σ'
    · simp [hrun, bind, Except.bind] at h
    · rcases hpass : pass blank body ks σ' with e | ⟨τ', log'⟩
      · simp [hrun, hpass, bind, Except.bind, Except.map] at h
      · simp only [hrun, hpass, bind, Except.bind, Except.map, Except.ok.injEq, Prod.mk.injEq] at h
        obtain ⟨rfl, rfl⟩ := h
        exact ⟨hb, σ', log', rfl, hpass, rfl⟩
  · rw [if_neg hb] at h
    exact .inr ⟨by simpa using hb, h⟩

/-- `σ` with the cells of `ks` taken from `val`. -/
def overlay (ks : List K) (val σ : K → V) : K → V := fun k => if k ∈ ks then val k else σ k

theorem overlay_nil (val σ : K → V) : overlay [] val σ = σ := by
  funext k
  simp [overlay]

theorem overlay_concat (ks : List K) (k : K) (val σ : K → V) :
    overlay (ks ++ [k]) val σ = update (overlay ks val σ) k (val k) := by
  funext j
  by_cases hj : j = k
  · subst hj
    simp [overlay]
  · simp [overlay, hj]

/-- What a program settles its cell to, started on `σ`. -/
def Settles (σ : K → V) (k : K) (p : CellProg K V E) (v : V) : Prop :=
  p.exec σ = .ok (update σ k v)

variable {R : K → Prop}

/-- The invariant of `pass`: with the cells of `done` already settled from the
store `σ` the pass began with, the rest of the pass settles the rest from `σ`. -/
theorem pass_overlay {val : K → V} : ∀ (ks done : List K), (done ++ ks).Nodup → (∀ k ∈ done ++ ks, ¬ R k) →
    (∀ k ∈ ks, blank (σ k) → (body k).Confined k R ∧ Settles σ k (body k) (val k)) →
    pass blank body ks (overlay (done.filter fun k => blank (σ k)) val σ) =
      .ok (overlay ((done ++ ks).filter fun k => blank (σ k)) val σ,
        ks.filter fun k => blank (σ k)) := by
  intro ks
  induction ks with
  | nil =>
    simp [pass]
  | cons k ks ih =>
    intro done hnd hR hset
    have hnd' : (done ++ [k] ++ ks).Nodup := by simpa using hnd
    have hR' : ∀ j ∈ done ++ [k] ++ ks, ¬ R j := by simpa using hR
    have hrest := ih (done ++ [k]) hnd' hR' fun j hj => hset j (mem_cons_of_mem _ hj)
    have hk : k ∉ done := by
      intro hmem
      exact (nodup_append.1 hnd).2.2 k hmem k (mem_cons_self ..) rfl
    -- the cell of `k` has not been touched yet
    have hself : overlay (done.filter fun j => blank (σ j)) val σ k = σ k := by
      simp [overlay, hk]
    unfold pass
    rw [hself]
    by_cases hb : blank (σ k) = true
    · obtain ⟨hconf, hval⟩ := hset k (mem_cons_self ..) hb
      have hrun : (body k).exec (overlay (done.filter fun j => blank (σ j)) val σ) =
          .ok (overlay ((done ++ [k]).filter fun j => blank (σ j)) val σ) := by
        have hagree : ∀ j, R j → overlay (done.filter fun j => blank (σ j)) val σ j = σ j := by
          intro j hj
          have hjd : j ∉ done := fun hmem => hR j (mem_append_left _ hmem) hj
          simp [overlay, hjd]
        have hstart : (body k).exec (update σ k (σ k)) = .ok (update σ k (val k)) := by
          rw [update_eq_self]
          exact hval
        obtain ⟨v, hv, hrun⟩ := CellProg.exec_update_frame hagree (hR k (by simp)) hconf hstart
        have hvk : val k = v := by
          have := congrFun hv k
          simpa using this
        rw [← hself, update_eq_self] at hrun
        rw [hrun]
        simp [hb, overlay_concat, hvk]
      rw [if_pos hb, hrun]
      show (pass blank body ks _).map _ = _
      rw [hrest]
      simp [Except.map, hb]
    · have hskip : (done ++ [k]).filter (fun j => blank (σ j)) = done.filter fun j => blank (σ j) := by
        simp [filter_append, hb]
      rw [← hskip, hrest]
      simp [hb]

/-- A pass over programs that do not read each other's cells settles each blank
cell from the store the pass began with. -/
theorem pass_eq_of_settled {val : K → V} {ks : List K} (hnd : ks.Nodup) (hR : ∀ k ∈ ks, ¬ R k)
    (hset : ∀ k ∈ ks, blank (σ k) → (body k).Confined k R ∧ Settles σ k (body k) (val k)) :
    pass blank body ks σ =
      .ok (overlay (ks.filter fun k => blank (σ k)) val σ, ks.filter fun k => blank (σ k)) := by
  have h := pass_overlay ks [] (by simpa using hnd) (by simpa using hR) hset
  simpa [overlay_nil] using h

/-- A pass runs the programs of the cells that were blank when it began, settles
each of these cells from the store it began with, and leaves all others alone. -/
theorem pass_spec :
    ∀ {ks : List K} {σ τ : K → V} {log : List K}, ks.Nodup → (∀ k ∈ ks, ¬ R k ∧ (body k).Confined k R) →
    pass blank body ks σ = .ok (τ, log) →
    log = (ks.filter fun k => blank (σ k)) ∧ (∀ j, j ∉ log → τ j = σ j) ∧ ∀ k ∈ log, Settles σ k (body k) (τ k) := by
  intro ks
  induction ks with
  | nil =>
    intro σ τ log _ _ h
    obtain ⟨rfl, rfl⟩ := h
    simp
  | cons k ks ih =>
    intro σ τ log hnd hks h
    obtain ⟨hk, hnd⟩ := nodup_cons.1 hnd
    have hrest := fun j hj => hks j (mem_cons_of_mem k hj)
    rcases pass_cons_ok h with ⟨hb, σ', log', hrun, hpass, rfl⟩ | ⟨hb, h⟩
    · obtain ⟨hR, hconf⟩ := hks k (mem_cons_self ..)
      obtain ⟨v, rfl⟩ := CellProg.exec_confined hR hconf hrun
      obtain ⟨hlog, hframe, hsettles⟩ := ih hnd hrest hpass
      refine ⟨?_, fun j hj => ?_, fun j hj => ?_⟩
      · rw [filter_cons_of_pos (by simpa using hb), hlog]
        congr 1
        refine filter_congr fun j hj => ?_
        have hjk : j ≠ k := fun heq => hk (heq ▸ hj)
        rw [update_of_ne hjk]
      · have hjk : j ≠ k := fun heq => hj (heq ▸ mem_cons_self ..)
        rw [hframe j fun hmem => hj (mem_cons_of_mem k hmem), update_of_ne hjk]
      · rcases mem_cons.1 hj with rfl | hj
        · have hj' : j ∉ log' := fun hmem => hk (mem_filter.1 (hlog ▸ hmem)).1
          rw [hframe j hj', update_self]
          exact hrun
        · have hjks : j ∈ ks := (mem_filter.1 (hlog ▸ hj)).1
          have hjk : j ≠ k := fun heq => hk (heq ▸ hjks)
          have hset := hsettles j hj
          -- the program of `j` does not see what the one of `k` has written
          have hagree : ∀ i, R i → σ i = update σ k v i := by
            intro i hi
            have hik : i ≠ k := fun heq => hR (heq ▸ hi)
            rw [update_of_ne hik]
          nth_rewrite 1 [← update_eq_self j (update σ k v)] at hset
          obtain ⟨u, hu, hrun'⟩ := CellProg.exec_update_frame hagree (hrest j hjks).1 (hrest j hjks).2 hset
          have hτ : τ j = u := by
            have := congrFun hu j
            simpa using this
          rw [update_of_ne hjk, update_eq_self] at hrun'
          rw [hτ]
          exact hrun'
    · obtain ⟨rfl, hrest⟩ := ih hnd hrest h
      exact ⟨by rw [filter_cons_of_neg (by simpa using hb)], hrest⟩

end Pass

end Sbmt.Lib
