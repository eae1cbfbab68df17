import Mathlib

/-!
# AND/OR graphs

Each item of an AND/OR graph has alternatives, and an alternative is a label
with a list of items. Taking one alternative at an item, and so on at the items
it lists, unfolds the graph to a tree. `taken k p` says which alternatives may be
taken at `k`: any of them, or the one that was chosen for `k`.

A rank that falls along every alternative makes the graph acyclic, and each of
its items unfolds (`acyclic_of_rank`, `exists_follows`). What stands below a node
of an unfolded tree is led to by its item (`Follows.transGen`).
-/

namespace Sbmt.Lib.AndOr

open List

inductive Unfolded (ι α : Type) where
  | node (item : ι) (label : α) (kids : List (Unfolded ι α))

namespace Unfolded

variable {ι α : Type}

def item : Unfolded ι α → ι
  | node k _ _ => k

def label : Unfolded ι α → α
  | node _ l _ => l

def kids : Unfolded ι α → List (Unfolded ι α)
  | node _ _ ts => ts

theorem induct {P : Unfolded ι α → Prop} (h : ∀ k l ts, (∀ t ∈ ts, P t) → P (.node k l ts)) (t : Unfolded ι α) : P t :=
  @Unfolded.rec ι α P (fun ts => ∀ t ∈ ts, P t) (fun k l ts ih => h k l ts ih)
    (fun _ ht => absurd ht not_mem_nil)
    (fun _ _ hhead htail _ ht => (mem_cons.1 ht).elim (fun he => he ▸ hhead) (htail _)) t

mutual

def nodes : Unfolded ι α → List (Unfolded ι α)
  | node k l ts => node k l ts :: nodesOf ts

def nodesOf : List (Unfolded ι α) → List (Unfolded ι α)
  | [] => []
  | t :: ts => t.nodes ++ nodesOf ts

end

theorem nodesOf_eq (ts : List (Unfolded ι α)) : nodesOf ts = ts.flatMap nodes := by
  induction ts with
  | nil => rfl
  | cons t ts ih => rw [nodesOf, ih, flatMap_cons]

theorem mem_nodes {x : Unfolded ι α} {k : ι} {l : α} {ts : List (Unfolded ι α)} :
    x ∈ (node k l ts).nodes ↔ x = node k l ts ∨ ∃ t ∈ ts, x ∈ t.nodes := by
  rw [nodes, nodesOf_eq, mem_cons, mem_flatMap]

theorem self_mem_nodes (t : Unfolded ι α) : t ∈ t.nodes := by
  cases t with
  | node k l ts => exact mem_nodes.2 (.inl rfl)

theorem mem_nodes_trans {x y z : Unfolded ι α} (hxy : x ∈ y.nodes) : y ∈ z.nodes → x ∈ z.nodes := by
  induction z using induct with
  | h k l ts ih =>
    intro hyz
    rcases mem_nodes.1 hyz with rfl | ⟨t, ht, hyt⟩
    · exact hxy
    · exact mem_nodes.2 (.inr ⟨t, ht, ih t ht hyt⟩)

/-- `y` stands somewhere below `x`. -/
def Above (x y : Unfolded ι α) : Prop := ∃ t ∈ x.kids, y ∈ t.nodes

end Unfolded

variable {ι α : Type} {taken : ι → α × List ι → Prop}

section
variable (taken)

/-- An alternative of `a` lists `b`. -/
def Leads (a b : ι) : Prop := ∃ p, taken a p ∧ b ∈ p.2

def Acyclic : Prop := ∀ a, ¬ Relation.TransGen (Leads taken) a a

/-- Every node of the tree takes an alternative of its item. -/
def Follows (t : Unfolded ι α) : Prop := ∀ x ∈ t.nodes, taken x.item (x.label, x.kids.map Unfolded.item)

end

theorem acyclic_of_rank (rank : ι → Nat) (h : ∀ a b, Leads taken a b → rank b < rank a) : Acyclic taken := by
  intro a ha
  have hfalls : ∀ b, Relation.TransGen (Leads taken) a b → rank b < rank a := by
    intro b hb
    induction hb with
    | single hab => exact h _ _ hab
    | tail _ hbc ih => exact (h _ _ hbc).trans ih
  exact lt_irrefl _ (hfalls a ha)

namespace Follows

open Unfolded

theorem node_iff {k : ι} {l : α} {ts : List (Unfolded ι α)} :
    Follows taken (.node k l ts) ↔ taken k (l, ts.map item) ∧ ∀ t ∈ ts, Follows taken t := by
  constructor
  · intro h
    exact ⟨h _ (self_mem_nodes _), fun t ht x hx => h x (mem_nodes.2 (.inr ⟨t, ht, hx⟩))⟩
  · rintro ⟨hroot, hkids⟩ x hx
    rcases mem_nodes.1 hx with rfl | ⟨t, ht, hx⟩
    · exact hroot
    · exact hkids t ht x hx

theorem of_mem {t x : Unfolded ι α} (h : Follows taken t) (hx : x ∈ t.nodes) : Follows taken x :=
  fun _ hy => h _ (mem_nodes_trans hy hx)

/-- Items along a branch lead from one to the next. -/
theorem reflTransGen {t : Unfolded ι α} : Follows taken t → ∀ {x : Unfolded ι α}, x ∈ t.nodes →
    Relation.ReflTransGen (Leads taken) t.item x.item := by
  induction t using induct with
  | h k l ts ih =>
    intro hfollows x hx
    obtain ⟨hroot, hkids⟩ := node_iff.1 hfollows
    rcases mem_nodes.1 hx with rfl | ⟨t, ht, hx⟩
    · exact .refl
    · exact .head ⟨_, hroot, mem_map_of_mem ht⟩ (ih t ht (hkids t ht) hx)

theorem transGen {x y : Unfolded ι α} (h : Follows taken x) (habove : Above x y) :
    Relation.TransGen (Leads taken) x.item y.item := by
  cases x with
  | node k l ts =>
    obtain ⟨t, ht, hy⟩ := habove
    obtain ⟨hroot, hkids⟩ := node_iff.1 h
    exact .head' ⟨_, hroot, mem_map_of_mem ht⟩ ((hkids t ht).reflTransGen hy)

end Follows

/-- Below a rank, a choice unfolds from each item it keeps to. -/
theorem exists_follows (choice : ι → α × List ι) (rank : ι → Nat) (inside : ι → Prop)
    (hinside : ∀ k, inside k → ∀ b ∈ (choice k).2, inside b ∧ rank b < rank k) :
    ∀ k, inside k → ∃ t, t.item = k ∧ Follows (fun k p => p = choice k) t := by
  suffices H : ∀ n k, rank k < n → inside k → ∃ t, t.item = k ∧ Follows (fun k p => p = choice k) t from
    fun k hk => H _ k (Nat.lt_succ_self _) hk
  intro n
  induction n with
  | zero => intro k hn; omega
  | succ n ih =>
    intro k hn hk
    have hkids : ∀ b ∈ (choice k).2, ∃ t : Unfolded ι α, t.item = b ∧ Follows (fun k p => p = choice k) t := by
      intro b hb
      obtain ⟨hb, hfalls⟩ := hinside k hk b hb
      exact ih b (by omega) hb
    obtain ⟨ts, hitems, hts⟩ : ∃ ts : List (Unfolded ι α), ts.map Unfolded.item = (choice k).2 ∧
        ∀ t ∈ ts, Follows (fun k p => p = choice k) t := by
      generalize (choice k).2 = bs at hkids ⊢
      induction bs with
      | nil => exact ⟨[], rfl, fun t ht => absurd ht not_mem_nil⟩
      | cons b bs ihbs =>
        obtain ⟨t, htb, ht⟩ := hkids b mem_cons_self
        obtain ⟨ts, htsb, hts⟩ := ihbs fun b hb => hkids b (mem_cons_of_mem _ hb)
        exact ⟨t :: ts, by rw [map_cons, htb, htsb], forall_mem_cons.2 ⟨ht, hts⟩⟩
    exact ⟨.node k (choice k).1 ts, rfl, Follows.node_iff.2 ⟨by rw [hitems], hts⟩⟩

end Sbmt.Lib.AndOr
