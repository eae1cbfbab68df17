import Sbmt.Edge.SpanString
/-!
# Applying a rule in forced decoding (`sbmt_decoder/include/sbmt/search/impl/force_sentence_filter.ipp:286-506`)

| here | there |
| --- | --- |
| `ForceEdge` | what `apply_rule` asks of an edge equivalence: the span it makes in the target, and `scoreable` |
| `edgesAt` | `force_sentence_cell::edges(left)` (`chart/impl/force_sentence_cell.ipp:98-104`) |
| `creates` | `create_edge`; `top` is the length of the target where the rule makes the top token |
| `naivePairs` | the double loop of the last branch (`force_sentence_filter.ipp:436-476`) |
| `applyRule` | the branches of a scoreable rule (`:348-476`): what it makes edges of |
| `binaryString` | a span string with the two variables, by what stands before, between and behind them |

The search with an index takes the child that comes first in the string (the anchor), asks its signature, and looks for
the other where the gap puts it.  The double loop asks nothing of a child that has no length; the index wants it in its
place.  `join_spans` of two edges leaves one with a foreign root out (`:4-26`): a rule with one has no two variables.
-/

namespace Sbmt.Search

open Sbmt.Edge Sbmt.Edge.SpanString List

variable {E : Type}

structure ForceEdge (E : Type) where
  edge : E
  espan : Span
  scoreable : Bool

/-- The argument is cut to the 16 bits of a `span_index_t`. -/
def edgesAt (left : Int) (er : List (ForceEdge E)) : List (ForceEdge E) :=
  er.filter fun e => decide ((e.espan.left : Int) = left % 2 ^ 16)

variable (sstr : SpanString)

def creates (top : Option Nat) (e1 e2 : ForceEdge E) : Bool :=
  match joinSpans sstr [e1.espan, e2.espan] with
  | some (p, ok) => ok && (top.all fun n => decide (p = (0, n)))
  | none => false

def naivePairs (top : Option Nat) (er1 er2 : List (ForceEdge E)) : List (ForceEdge E × ForceEdge E) :=
  er1.flatMap fun e1 =>
    if e1.scoreable then (er2.filter fun e2 => e2.scoreable && creates sstr top e1 e2).map fun e2 => (e1, e2) else []

def applyRule (top : Option Nat) (er1 er2 : List (ForceEdge E)) : List (ForceEdge E × ForceEdge E) :=
  if (gap sstr).2 = 1 then
    er1.flatMap fun e1 =>
      if e1.scoreable && (signature sstr 0).matches e1.espan then
        ((edgesAt (e1.espan.right + (gap sstr).1) er2).filter fun e2 => e2.scoreable && creates sstr top e1 e2).map
          fun e2 => (e1, e2)
      else []
  else if (gap sstr).2 = -1 then
    er2.flatMap fun e2 =>
      if e2.scoreable && (signature sstr 1).matches e2.espan then
        ((edgesAt (e2.espan.right + (gap sstr).1) er1).filter fun e1 => e1.scoreable && creates sstr top e1 e2).map
          fun e1 => (e1, e2)
      else []
  else naivePairs sstr top er1 er2

variable (reversing : Bool)

/-- The variables in order, or reversed, with spans before, between and behind them. -/
def binaryString (pre mid post : List Span) : SpanString :=
  pre.map .span ++ .index (if reversing then 1 else 0) ::
    (mid.map .span ++ .index (if reversing then 0 else 1) :: post.map .span)

/-- The child that comes first in the string, and the other. -/
def anchor (s0 s1 : Span) : Span := if reversing then s1 else s0

def other (s0 s1 : Span) : Span := if reversing then s0 else s1

/-- What the search with an index asks of the two children. -/
def Admits (s0 s1 : Span) : Prop :=
  (signature sstr (if reversing then 1 else 0)).matches (anchor reversing s0 s1) = true ∧
    ((other reversing s0 s1).left : Int) = ((anchor reversing s0 s1).right + (gap sstr).1) % 2 ^ 16

/-- A first child without length is beside the span next to it. -/
structure Beside (pre mid post : List Span) (s : Span) : Prop where
  next : ∀ m ∈ mid.head?, s.left = m.left
  last : mid = [] → ∀ p ∈ pre.getLast?, s.left = p.right
  rest : mid = [] → pre = [] → ∀ p ∈ post.head?, s.left ≤ p.left

/-- Both children have length; or the second begins where the first and the spans between the two end, and if neither
has length the first is beside the span next to it. -/
def InPlace (pre mid post : List Span) (s0 s1 : Span) : Prop :=
  s0.length ≠ 0 ∧ s1.length ≠ 0 ∨
    (other reversing s0 s1).left = (anchor reversing s0 s1).right + (mid.map Span.length).sum ∧
      (s0.length ≠ 0 ∨ s1.length ≠ 0 ∨ Beside pre mid post (anchor reversing s0 s1))

/-! ## Gap and signature of such a string -/

section

variable {pre mid post : List Span} {reversing : Bool} {sstr : SpanString} {s : Span} {i j : Nat}

theorem gapFrom_spans (l : List Span) (sstr : SpanString) (seen : Option Bool) (first : Int) :
    gapFrom (l.map .span ++ sstr) seen first =
      gapFrom sstr seen (if seen.isSome then first + (l.map Span.length).sum else first) := by
  induction l generalizing first with
  | nil => simp
  | cons s l ih =>
    rw [map_cons, cons_append, gapFrom, ih]
    congr 1
    split_ifs with h
    · push_cast [map_cons, sum_cons]
      omega
    · rfl

theorem gap_binaryString (reversing : Bool) (pre mid post : List Span) :
    gap (binaryString reversing pre mid post) =
      (((mid.map Span.length).sum : Int), if reversing then -1 else 1) := by
  unfold gap binaryString
  cases reversing <;> simp [gapFrom, gapFrom_spans]

variable (pre sstr) in
/-- Before the variable is found, the last span is the left bound. -/
theorem signatureFrom_pre (openLeft openRight : Bool) (left : Nat) :
    signatureFrom i (pre.map .span ++ sstr) false openLeft openRight left =
      signatureFrom i sstr false (pre.isEmpty && openLeft) openRight ((pre.getLast?.map Span.right).getD left) := by
  induction pre generalizing openLeft left with
  | nil => simp
  | cons s pre ih =>
    have hlast : ((s :: pre).getLast?.map Span.right).getD left = (pre.getLast?.map Span.right).getD s.right := by
      rw [getLast?_cons]
      cases pre.getLast? <;> rfl
    rw [map_cons, cons_append, signatureFrom, ih, hlast, Bool.and_false]
    rfl

/-- What is asked of the first child by its signature. -/
theorem matches_binaryString :
    (signature (binaryString reversing pre mid post) (if reversing then 1 else 0)).matches s = true ↔
      (∀ p ∈ pre.getLast?, s.left = p.right) ∧ (∀ m ∈ mid.head?, s.right = m.left) ∧
        (mid = [] → ∀ p ∈ post.head?, s.right ≤ p.left) := by
  have hbound : s.right ≤ ushrtMax := s.bound
  rw [signature, binaryString, signatureFrom_pre]
  rcases eq_nil_or_concat pre with rfl | ⟨pre, p, rfl⟩
  · cases mid with
    | cons m mid => simp [signatureFrom, SpanSig.matches]
    | nil => cases post <;> simp [signatureFrom, SpanSig.matches, hbound]
  · cases mid with
    | cons m mid => simp [signatureFrom, SpanSig.matches]
    | nil => cases post <;> simp [signatureFrom, SpanSig.matches, hbound]

/-! ## What joining tells -/

/-- Spans one behind the other. -/
structure Run (l : List Span) (a b : Nat) : Prop where
  head : ∀ p ∈ l.head?, p.left = a
  last : ∀ p ∈ l.getLast?, p.right = b
  length : b = a + (l.map Span.length).sum

variable {a b : Nat}

theorem tiles_run {children : List Span} (l : List Span) (sstr : SpanString)
    (h : Tiles children (l.map .span ++ sstr) a b) : ∃ m, Run l a m ∧ Tiles children sstr m b := by
  induction l generalizing a with
  | nil => exact ⟨a, ⟨by simp, by simp, by simp⟩, h⟩
  | cons s l ih =>
    obtain ⟨rfl, h⟩ := h
    obtain ⟨m, hrun, h⟩ := ih h
    have hle := s.le
    refine ⟨m, ⟨fun p hp => (by cases hp; rfl), ?_, ?_⟩, h⟩
    · intro p hp
      rw [getLast?_cons] at hp
      cases hl : l.getLast? with
      | none =>
        rw [hl] at hp
        cases hp
        rw [getLast?_eq_none_iff.mp hl] at hrun
        exact hrun.length.symm
      | some q =>
        rw [hl] at hp
        cases hp
        exact hrun.last _ hl
    · have hlength := hrun.length
      rw [map_cons, sum_cons, Span.length]
      omega

/-- The place of a child between `a` and `b`: none if it has no length. -/
def At (s : Span) (a b : Nat) : Prop := s.length = 0 ∧ b = a ∨ s.length ≠ 0 ∧ s.left = a ∧ s.right = b

theorem tiles_at {children : List Span} {tail : SpanString} (hs : children[i]? = some s)
    (h : Tiles children (.index i :: tail) a b) : ∃ m, At s a m ∧ Tiles children tail m b := by
  obtain ⟨t, ht, hcase⟩ := h
  obtain rfl := Option.mem_unique hs ht
  rcases hcase with ⟨hlen, h⟩ | ⟨hlen, hleft, h⟩
  · exact ⟨a, .inl ⟨hlen, rfl⟩, h⟩
  · exact ⟨s.right, .inr ⟨hlen, hleft, rfl⟩, h⟩

/-- Where the parts of a joined string lie. -/
structure Joined (pre mid post : List Span) (first second : Span) (x x' y y' : Nat) : Prop where
  pre : ∀ p ∈ pre.getLast?, p.right = x
  first : At first x x'
  mid : Run mid x' y
  second : At second y y'
  post : ∀ p ∈ post.head?, p.left = y'

theorem joined_of_joinSpans {s0 s1 : Span} {p : Nat × Nat}
    (h : joinSpans (binaryString reversing pre mid post) [s0, s1] = some (p, true)) :
    ∃ x x' y y', Joined pre mid post (anchor reversing s0 s1) (other reversing s0 s1) x x' y y' := by
  have hanchor : [s0, s1][if reversing then 1 else 0]? = some (anchor reversing s0 s1) := by cases reversing <;> rfl
  have hother : [s0, s1][if reversing then 0 else 1]? = some (other reversing s0 s1) := by cases reversing <;> rfl
  have hfed : Fed [s0, s1] (binaryString reversing pre mid post) := by
    intro i hi
    cases reversing <;> simp [binaryString] at hi <;> simp <;> omega
  rcases (joinSpans_eq_some hfed).mp h with ⟨-, h⟩ | ⟨hnone, -⟩
  · obtain ⟨x, hpre, h⟩ := tiles_run pre _ h
    obtain ⟨x', hfirst, h⟩ := tiles_at hanchor h
    obtain ⟨y, hmid, h⟩ := tiles_run mid _ h
    obtain ⟨y', hsecond, h⟩ := tiles_at hother h
    rw [← append_nil (post.map SpanToken.span)] at h
    obtain ⟨m, hpost, -⟩ := tiles_run post _ h
    exact ⟨x, x', y, y', hpre.last, hfirst, hmid, hsecond, hpost.head⟩
  · -- nothing has a part
    have hspans : ∀ l : List Span, (∀ s ∈ l, SpanToken.span s ∈ binaryString reversing pre mid post) → l = [] := by
      intro l hl
      rw [eq_nil_iff_forall_not_mem]
      exact fun s hs => hnone (.inl ⟨s, hl s hs⟩)
    obtain rfl := hspans pre fun s hs => by simp [binaryString, hs]
    obtain rfl := hspans mid fun s hs => by simp [binaryString, hs]
    obtain rfl := hspans post fun s hs => by simp [binaryString, hs]
    have hempty : ∀ {i : Nat} {s : Span}, SpanToken.index i ∈ binaryString reversing [] [] [] → [s0, s1][i]? = some s →
        At s 0 0 := by
      intro i s hi hs
      refine .inl ⟨?_, rfl⟩
      by_contra hlen
      exact hnone (.inr ⟨i, s, hi, hs, hlen⟩)
    refine ⟨0, 0, 0, 0, ⟨by simp, hempty ?_ hanchor, ⟨by simp, by simp, by simp⟩, hempty ?_ hother, by simp⟩⟩
    · simp [binaryString]
    · simp [binaryString]

theorem Run.le_ushrtMax {l : List Span} (h : Run l a b) (ha : a ≤ ushrtMax) : b ≤ ushrtMax := by
  cases hl : l.getLast? with
  | none =>
    have hlen := h.length
    rw [getLast?_eq_none_iff.mp hl] at hlen
    exact hlen.le.trans ha
  | some p => exact h.last p hl ▸ p.bound

section

variable {A O : Span} {x x' y y' : Nat}

theorem Joined.anchor_matches (h : Joined pre mid post A O x x' y y') (hA : A.left = x) (hA' : A.right = x') :
    (∀ p ∈ pre.getLast?, A.left = p.right) ∧ (∀ m ∈ mid.head?, A.right = m.left) ∧
      (mid = [] → ∀ p ∈ post.head?, A.right ≤ p.left) := by
  refine ⟨fun p hp => hA.trans (h.pre p hp).symm, fun m hm => hA'.trans (h.mid.head m hm).symm, fun hmid p hp => ?_⟩
  have hlen := h.mid.length
  rw [hmid, map_nil, sum_nil, Nat.add_zero] at hlen
  rw [hA', h.post p hp, ← hlen]
  rcases h.second with ⟨-, heq⟩ | ⟨-, hleft, hright⟩
  · exact heq.ge
  · rw [← hleft, ← hright]
    exact O.le

theorem Joined.admits_iff (h : Joined pre mid post A O x x' y y') :
    ((∀ p ∈ pre.getLast?, A.left = p.right) ∧ (∀ m ∈ mid.head?, A.right = m.left) ∧
        (mid = [] → ∀ p ∈ post.head?, A.right ≤ p.left)) ∧
      (O.left : Int) = (A.right + ((mid.map Span.length).sum : Int)) % 2 ^ 16 ↔
    A.length ≠ 0 ∧ O.length ≠ 0 ∨ O.left = A.right + (mid.map Span.length).sum ∧
      (A.length ≠ 0 ∨ O.length ≠ 0 ∨ Beside pre mid post A) := by
  have hy := h.mid.length
  have hO : O.left ≤ 65535 := O.le.trans O.bound
  have hA : A.right ≤ 65535 := A.bound
  have hnone : mid = [] → (mid.map Span.length).sum = 0 := fun hmid => hmid ▸ rfl
  generalize (mid.map Span.length).sum = g at hy hnone ⊢
  rcases h.first with ⟨hAlen, hx⟩ | ⟨hAlen, hAleft, hAright⟩
  · -- the first child has no length
    have hAeq : A.left = A.right := by have := A.le; unfold Span.length at hAlen; omega
    rcases h.second with ⟨hOlen, hy'⟩ | ⟨hOlen, hOleft, hOright⟩
    · simp only [hAlen, hOlen, ne_eq, not_true_eq_false, false_and, false_or]
      cases hmid : mid with
      | cons m rest =>
        have hm : m.left = x' := h.mid.head m (by rw [hmid]; rfl)
        have hyle : y ≤ 65535 := h.mid.le_ushrtMax (hm ▸ m.le.trans m.bound)
        constructor
        · rintro ⟨⟨-, hright, -⟩, hcutO⟩
          have hAm : A.right = m.left := hright m rfl
          refine ⟨by omega, ⟨?_, fun hnil => (by cases hnil), fun hnil => (by cases hnil)⟩⟩
          intro m' hm'
          cases hm'
          exact hAeq.trans hAm
        · rintro ⟨hplace, hbeside⟩
          have hAm : A.left = m.left := hbeside.next m rfl
          rw [← hmid]
          exact ⟨h.anchor_matches (by omega) (by omega), by omega⟩
      | nil =>
        have hg := hnone hmid
        constructor
        · rintro ⟨⟨hpre, -, hpost⟩, hcutO⟩
          exact ⟨by omega, ⟨by simp, fun _ => hpre, fun _ _ p hp => hAeq ▸ hpost rfl p hp⟩⟩
        · rintro ⟨hplace, hbeside⟩
          refine ⟨⟨hbeside.last rfl, by simp, fun _ p hp => ?_⟩, by omega⟩
          rcases eq_nil_or_concat pre with hnil | ⟨init, q, hq⟩
          · exact hAeq ▸ hbeside.rest rfl hnil p hp
          · have hlast : q ∈ pre.getLast? := by rw [hq, concat_eq_append, getLast?_concat]; rfl
            have hAq := hbeside.last rfl q hlast
            have hqx := h.pre q hlast
            have hpy := h.post p hp
            omega
    · constructor
      · omega
      · intro hplace
        have hAx : A.right = x := by omega
        exact ⟨h.anchor_matches (hAeq.trans hAx) (hAx.trans hx.symm), by omega⟩
  · -- the first child has length, so its signature holds
    have hmatch := h.anchor_matches hAleft hAright
    have hyle : y ≤ 65535 := h.mid.le_ushrtMax (hAright ▸ A.bound)
    simp only [hAlen, ne_eq, not_false_eq_true, true_and, true_or, and_true]
    rcases h.second with ⟨hOlen, hy'⟩ | ⟨hOlen, hOleft, hOright⟩
    · exact ⟨fun hplace => by omega, fun hplace => ⟨hmatch, by omega⟩⟩
    · simp only [hOlen, not_false_eq_true, true_or, iff_true]
      exact ⟨hmatch, by omega⟩

end

/-- **Where the children are joined, the index admits them exactly when those without length are in place.** -/
theorem admits_iff_inPlace {s0 s1 : Span} {p : Nat × Nat}
    (h : joinSpans (binaryString reversing pre mid post) [s0, s1] = some (p, true)) :
    Admits (binaryString reversing pre mid post) reversing s0 s1 ↔ InPlace reversing pre mid post s0 s1 := by
  obtain ⟨x, x', y, y', h⟩ := joined_of_joinSpans h
  have hlens : s0.length ≠ 0 ∧ s1.length ≠ 0 ↔
      (anchor reversing s0 s1).length ≠ 0 ∧ (other reversing s0 s1).length ≠ 0 := by
    cases reversing
    · exact Iff.rfl
    · exact and_comm
  have hlens' : (s0.length ≠ 0 ∨ s1.length ≠ 0 ∨ Beside pre mid post (anchor reversing s0 s1)) ↔
      ((anchor reversing s0 s1).length ≠ 0 ∨ (other reversing s0 s1).length ≠ 0 ∨
        Beside pre mid post (anchor reversing s0 s1)) := by
    cases reversing
    · exact Iff.rfl
    · exact or_left_comm
  rw [Admits, matches_binaryString, gap_binaryString, InPlace, hlens, hlens']
  exact h.admits_iff

/-- The variables of a span string, in order. -/
def indices : SpanString → List Nat
  | [] => []
  | .index i :: sstr => i :: indices sstr
  | .span _ :: sstr => indices sstr

/-! ## The pairs that are found -/

variable {e1 e2 : ForceEdge E} {top : Option Nat}

theorem mem_naivePairs {er1 er2 : List (ForceEdge E)} : (e1, e2) ∈ naivePairs sstr top er1 er2 ↔
      e1 ∈ er1 ∧ e2 ∈ er2 ∧ e1.scoreable = true ∧ e2.scoreable = true ∧ creates sstr top e1 e2 = true := by
  simp only [naivePairs, mem_flatMap, mem_ite_nil_right, mem_map, mem_filter, Bool.and_eq_true,
    Prod.mk.injEq]
  constructor
  · rintro ⟨e, he, hs, e', ⟨he', hs', hc⟩, rfl, rfl⟩
    exact ⟨he, he', hs, hs', hc⟩
  · rintro ⟨he, he', hs, hs', hc⟩
    exact ⟨e1, he, hs, e2, ⟨he', hs', hc⟩, rfl, rfl⟩

theorem mem_applyRule {er1 er2 : List (ForceEdge E)} :
    (e1, e2) ∈ applyRule (binaryString reversing pre mid post) top er1 er2 ↔
      (e1, e2) ∈ naivePairs (binaryString reversing pre mid post) top er1 er2 ∧
        Admits (binaryString reversing pre mid post) reversing e1.espan e2.espan := by
  rw [mem_naivePairs, applyRule]
  have hgap : (gap (binaryString reversing pre mid post)).2 = if reversing then -1 else 1 := by rw [gap_binaryString]
  rw [hgap]
  cases reversing with
  | false =>
    simp only [Bool.false_eq_true, if_false, if_true, mem_flatMap, mem_ite_nil_right, mem_map,
      mem_filter, Bool.and_eq_true, Prod.mk.injEq, edgesAt, Admits, anchor, other, decide_eq_true_eq]
    constructor
    · rintro ⟨e, he, ⟨hs, hm⟩, e', ⟨⟨he', hat⟩, hs', hc⟩, rfl, rfl⟩
      exact ⟨⟨he, he', hs, hs', hc⟩, hm, hat⟩
    · rintro ⟨⟨he, he', hs, hs', hc⟩, hm, hat⟩
      exact ⟨e1, he, ⟨hs, hm⟩, e2, ⟨⟨he', hat⟩, hs', hc⟩, rfl, rfl⟩
  | true =>
    have hminus : ¬ (-1 : Int) = 1 := by decide
    simp only [if_true, hminus, if_false, edgesAt, Admits, anchor, other]
    simp only [mem_flatMap, mem_ite_nil_right, mem_map, mem_filter, Bool.and_eq_true,
      Prod.mk.injEq, decide_eq_true_eq]
    constructor
    · rintro ⟨e, he, ⟨hs, hm⟩, e', ⟨⟨he', hat⟩, hs', hc⟩, rfl, rfl⟩
      exact ⟨⟨he', he, hs', hs, hc⟩, hm, hat⟩
    · rintro ⟨⟨he, he', hs, hs', hc⟩, hm, hat⟩
      exact ⟨e2, he', ⟨hs', hm⟩, e1, ⟨⟨he, hat⟩, hs, hc⟩, rfl, rfl⟩

theorem joins_of_creates (h : creates sstr top e1 e2 = true) :
    ∃ p, joinSpans sstr [e1.espan, e2.espan] = some (p, true) := by
  unfold creates at h
  cases hjoin : joinSpans sstr [e1.espan, e2.espan] with
  | none =>
    rw [hjoin] at h
    cases h
  | some r =>
    rw [hjoin] at h
    obtain ⟨p, ok⟩ := r
    obtain rfl := (Bool.and_eq_true_iff.mp h).1
    exact ⟨p, rfl⟩

/-- **The index finds what the double loop finds exactly when in every pair of scoreable edges that the double loop
joins the children without length are in place**; for two children, when they are. -/
theorem applyRule_finds_iff (reversing : Bool) (pre mid post : List Span) :
    (∀ s0 s1 : Span,
      ((∃ p, joinSpans (binaryString reversing pre mid post) [s0, s1] = some (p, true)) →
        Admits (binaryString reversing pre mid post) reversing s0 s1) ↔
      ((∃ p, joinSpans (binaryString reversing pre mid post) [s0, s1] = some (p, true)) →
        InPlace reversing pre mid post s0 s1)) ∧
    ∀ (top : Option Nat) (er1 er2 : List (ForceEdge E)),
      (∀ e1 e2, (e1, e2) ∈ applyRule (binaryString reversing pre mid post) top er1 er2 ↔
        (e1, e2) ∈ naivePairs (binaryString reversing pre mid post) top er1 er2) ↔
      ∀ e1 e2, (e1, e2) ∈ naivePairs (binaryString reversing pre mid post) top er1 er2 →
        InPlace reversing pre mid post e1.espan e2.espan := by
  constructor
  · intro s0 s1
    constructor
    · rintro h ⟨p, hp⟩
      exact (admits_iff_inPlace hp).mp (h ⟨p, hp⟩)
    · rintro h ⟨p, hp⟩
      exact (admits_iff_inPlace hp).mpr (h ⟨p, hp⟩)
  · intro top er1 er2
    have hadmits : ∀ e1 e2, (e1, e2) ∈ naivePairs (binaryString reversing pre mid post) top er1 er2 →
        (Admits (binaryString reversing pre mid post) reversing e1.espan e2.espan ↔
          InPlace reversing pre mid post e1.espan e2.espan) := by
      intro e1 e2 h
      obtain ⟨p, hp⟩ := joins_of_creates (mem_naivePairs.mp h).2.2.2.2
      exact admits_iff_inPlace hp
    constructor
    · intro h e1 e2 hmem
      exact (hadmits e1 e2 hmem).mp (mem_applyRule.mp ((h e1 e2).mpr hmem)).2
    · intro h e1 e2
      rw [mem_applyRule]
      exact ⟨And.left, fun hmem => ⟨hmem, (hadmits e1 e2 hmem).mpr (h e1 e2 hmem)⟩⟩

end

/-- `[0,1] x0 x1` with `[1,3]` and a second child without length at 0: joined to `[0,3]`, but not found by the index. -/
theorem not_applyRule_finds :
    ¬ ((∃ p, joinSpans (binaryString false [⟨0, 1, by decide, by decide⟩] [] [])
          [⟨1, 3, by decide, by decide⟩, ⟨0, 0, by decide, by decide⟩] = some (p, true)) →
        Admits (binaryString false [⟨0, 1, by decide, by decide⟩] [] []) false
          ⟨1, 3, by decide, by decide⟩ ⟨0, 0, by decide, by decide⟩) := by
  intro h
  exact absurd (h ⟨(0, 3), by decide⟩).2 (by decide)

example : (applyRule (binaryString false [⟨0, 1, by decide, by decide⟩] [] []) none
    [⟨(), ⟨1, 3, by decide, by decide⟩, true⟩] [⟨(), ⟨0, 0, by decide, by decide⟩, true⟩]).length = 0 ∧
  (naivePairs (binaryString false [⟨0, 1, by decide, by decide⟩] [] []) none
    [⟨(), ⟨1, 3, by decide, by decide⟩, true⟩] [⟨(), ⟨0, 0, by decide, by decide⟩, true⟩]).length = 1 := by decide

end Sbmt.Search
