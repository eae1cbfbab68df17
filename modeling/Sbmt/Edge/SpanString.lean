import Sbmt.Search.Span
/-!
# Span strings (`sbmt_decoder/include/sbmt/edge/sentence_info.hpp`)

| here | there |
| --- | --- |
| `SpanToken`, `SpanString` | `span_string::token`, `span_string` (`sentence_info.hpp:87-158`) |
| `token`, `pushBack`, `popBack`, `popBackSpan` | the constructor of a token, `push_back`, `pop_back` (`src/sentence_info.cpp:9-14`, `:57-89`) |
| `gap`, `signature` | `src/sentence_info.cpp:91-139` |

`none` is where the code throws, and where `join_span_range` asserts that an index has its child.

`Tiles` is what joining asks: the parts lie one behind the other.  A child of no length has no part.
-/

namespace Sbmt.Edge

open Sbmt.Search (Span ushrtMax)

inductive SpanToken where
  | span (s : Span)
  | index (i : Nat)
deriving DecidableEq

abbrev SpanString := List SpanToken

namespace SpanString

/-- A span without length is no token. -/
def token (s : Span) : Option SpanToken := if s.right ≤ s.left then none else some (.span s)

def pushBack (str : SpanString) (tok : SpanToken) : Option SpanString :=
  match str.getLast?, tok with
  | some (.span s), .span t => if s.adjacent t then some (str.dropLast ++ [.span (s.combine t)]) else none
  | _, _ => some (str ++ [tok])

def popBack (str : SpanString) : SpanString := str.dropLast

/-- What is left of the last span is the part before `s`. -/
def popBackSpan (str : SpanString) (s : Span) : Option SpanString :=
  match str.getLast? with
  | some (.span old) =>
    if h : old.left ≤ s.left ∧ old.right = s.right then
      if s.left = old.left then some str.dropLast
      else (token ⟨old.left, s.left, h.1, s.le.trans s.bound⟩).map fun tok => str.dropLast ++ [tok]
    else none
  | _ => none

/-- `cur` is `none` until something is there, then `spn_left` and `spn_right`. -/
def joinSpanRange (children : List Span) : SpanString → Option (Nat × Nat) → Option ((Nat × Nat) × Bool)
  | [], cur => some (cur.getD (0, 0), true)
  | .index i :: sstr, cur =>
    match children[i]? with
    | none => none
    | some s =>
      if s.length = 0 then joinSpanRange children sstr cur
      else
        match cur with
        | none => joinSpanRange children sstr (some (s.left, s.right))
        | some (left, right) =>
          if s.left ≠ right then some ((left, right), false) else joinSpanRange children sstr (some (left, s.right))
  | .span ss :: sstr, cur =>
    match cur with
    | none => joinSpanRange children sstr (some (ss.left, ss.right))
    | some (left, right) =>
      if ss.left ≠ right then some ((left, right), false) else joinSpanRange children sstr (some (left, ss.right))

/-- `join_spans`, of one child or of two. -/
def joinSpans (sstr : SpanString) (children : List Span) : Option ((Nat × Nat) × Bool) :=
  joinSpanRange children sstr none

/-! ## What is between the variables, and around one -/

/-- `seen` is `first_seen`, with `reversing`. -/
def gapFrom : SpanString → Option Bool → Int → Int × Int
  | [], _, first => (first, 0)
  | .span s :: sstr, seen, first => gapFrom sstr seen (if seen.isSome then first + s.length else first)
  | .index i :: sstr, none, first => gapFrom sstr (some (decide (i ≠ 0))) first
  | .index _ :: _, some reversing, first => (first, if reversing then -1 else 1)

def gap (sstr : SpanString) : Int × Int := gapFrom sstr none 0

inductive SigState where
  | openNone
  | openLeft
  | openRight
  | openBoth
deriving DecidableEq

structure SpanSig where
  lt : Nat
  rt : Nat
  st : SigState
deriving DecidableEq

def SpanSig.matches (sig : SpanSig) (s : Span) : Bool :=
  match sig.st with
  | .openBoth => decide (sig.lt ≤ s.left ∧ s.right ≤ sig.rt)
  | .openLeft => decide (sig.lt ≤ s.left ∧ s.right = sig.rt)
  | .openRight => decide (s.left = sig.lt ∧ s.right ≤ sig.rt)
  | .openNone => decide (s.left = sig.lt ∧ s.right = sig.rt)

def signatureFrom (idx : Nat) : SpanString → (found openLeft openRight : Bool) → (left : Nat) → SpanSig
  | [], _, openLeft, _, left => if openLeft then ⟨left, ushrtMax, .openBoth⟩ else ⟨left, ushrtMax, .openRight⟩
  | .index i :: sstr, found, openLeft, openRight, left =>
    if found then signatureFrom idx sstr found openLeft true left
    else if i = idx then signatureFrom idx sstr true openLeft openRight left
    else signatureFrom idx sstr found true openRight left
  | .span s :: sstr, found, openLeft, openRight, left =>
    if found then
      if openLeft && openRight then ⟨left, s.left, .openBoth⟩
      else if openLeft then ⟨left, s.left, .openLeft⟩
      else if openRight then ⟨left, s.left, .openRight⟩
      else ⟨left, s.left, .openNone⟩
    else signatureFrom idx sstr found false openRight s.right

def signature (sstr : SpanString) (idx : Nat) : SpanSig := signatureFrom idx sstr false true false 0

/-! ## Parts one behind the other -/

/-- The parts of the string lie one behind the other from `a` to `b`. -/
def Tiles (children : List Span) : SpanString → Nat → Nat → Prop
  | [], a, b => a = b
  | .index i :: sstr, a, b =>
    ∃ s, children[i]? = some s ∧
      (s.length = 0 ∧ Tiles children sstr a b ∨ s.length ≠ 0 ∧ s.left = a ∧ Tiles children sstr s.right b)
  | .span ss :: sstr, a, b => ss.left = a ∧ Tiles children sstr ss.right b

/-- Something in the string has a part. -/
def HasPart (children : List Span) (sstr : SpanString) : Prop :=
  (∃ s, .span s ∈ sstr) ∨ ∃ i s, .index i ∈ sstr ∧ children[i]? = some s ∧ s.length ≠ 0

/-- Every variable has its child. -/
def Fed (children : List Span) (sstr : SpanString) : Prop := ∀ i, .index i ∈ sstr → i < children.length

variable {children : List Span} {sstr : SpanString} {s : Span} {i a b l r : Nat} {tok : SpanToken}

theorem Fed.tail (h : Fed children (tok :: sstr)) : Fed children sstr := fun i hi => h i (List.mem_cons_of_mem tok hi)

theorem Fed.head (h : Fed children (.index i :: sstr)) : ∃ s, children[i]? = some s :=
  ⟨_, List.getElem?_eq_getElem (h i List.mem_cons_self)⟩

/-- Once something is there the rest has to go on from its end. -/
theorem joinSpanRange_some (h : Fed children sstr) :
    joinSpanRange children sstr (some (l, r)) = some ((a, b), true) ↔ a = l ∧ Tiles children sstr r b := by
  induction sstr generalizing r with
  | nil => simp [joinSpanRange, Tiles, eq_comm]
  | cons tok sstr ih =>
    have ih := fun r => @ih r h.tail
    cases tok with
    | span ss =>
      rw [joinSpanRange, Tiles]
      split_ifs with hne
      · simp [hne]
      · rw [ih, not_ne_iff.mp hne]
        simp
    | index i =>
      obtain ⟨s, hs⟩ := h.head
      rw [joinSpanRange, Tiles]
      simp only [hs, Option.some.injEq, exists_eq_left']
      split_ifs with hlen hne
      · rw [ih]
        simp [hlen]
      · simp [hlen, hne]
      · rw [ih, not_ne_iff.mp hne]
        simp [hlen]

theorem hasPart_span (children : List Span) (ss : Span) (sstr : SpanString) : HasPart children (.span ss :: sstr) :=
  .inl ⟨ss, List.mem_cons_self⟩

theorem hasPart_index (hs : children[i]? = some s) :
    HasPart children (.index i :: sstr) ↔ s.length ≠ 0 ∨ HasPart children sstr := by
  constructor
  · rintro (⟨ss, hss⟩ | ⟨j, t, hj, ht, hlen⟩)
    · exact .inr (.inl ⟨ss, (List.mem_cons.mp hss).resolve_left SpanToken.noConfusion⟩)
    · rcases List.mem_cons.mp hj with hji | hj
      · obtain rfl := SpanToken.index.inj hji
        obtain rfl := Option.mem_unique hs ht
        exact .inl hlen
      · exact .inr (.inr ⟨j, t, hj, ht, hlen⟩)
  · rintro (hlen | ⟨ss, hss⟩ | ⟨j, t, hj, ht⟩)
    · exact .inr ⟨i, s, List.mem_cons_self, hs, hlen⟩
    · exact .inl ⟨ss, List.mem_cons_of_mem _ hss⟩
    · exact .inr ⟨j, t, List.mem_cons_of_mem _ hj, ht⟩

/-- Joining succeeds where the parts lie one behind the other; without any, it gives the span at 0. -/
theorem joinSpans_eq_some (h : Fed children sstr) :
    joinSpans sstr children = some ((a, b), true) ↔
      HasPart children sstr ∧ Tiles children sstr a b ∨ ¬ HasPart children sstr ∧ a = 0 ∧ b = 0 := by
  unfold joinSpans
  induction sstr with
  | nil =>
    have hnone : ¬ HasPart children [] := by simp [HasPart]
    simp [joinSpanRange, hnone, eq_comm]
  | cons tok sstr ih =>
    have ih := ih h.tail
    cases tok with
    | span ss =>
      have hpart := hasPart_span children ss sstr
      simp only [joinSpanRange, joinSpanRange_some h.tail, hpart, not_true_eq_false, false_and, or_false, true_and, Tiles,
        eq_comm (a := a)]
    | index i =>
      obtain ⟨s, hs⟩ := h.head
      by_cases hlen : s.length = 0
      · simpa only [joinSpanRange, hs, hlen, if_true, hasPart_index hs, ne_eq, not_true_eq_false, false_or, Tiles,
          Option.some.injEq, exists_eq_left', false_and, or_false, true_and] using ih
      · have hpart := (@hasPart_index children sstr s i hs).mpr (.inl hlen)
        simp only [joinSpanRange, hs, hlen, if_false, joinSpanRange_some h.tail, hpart, not_true_eq_false, false_and,
          or_false, true_and, Tiles, Option.some.injEq, exists_eq_left', ne_eq, not_false_eq_true, false_or,
          eq_comm (a := a)]

end SpanString

end Sbmt.Edge
