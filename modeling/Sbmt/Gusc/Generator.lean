import Sbmt.Lib.Heap
import Sbmt.Lib.Ledger
/-!
# Generators (`gusc/gusc/generator`, `gusc/gusc/iterator`)

A generator is an object that can be asked whether it has a current value, what that value is, and to
move on.  Moving on may touch a store that several generators share, so `pop` lives in the state monad
over that store; a generator that shares nothing is generic in the store.

| here | there |
| --- | --- |
| `Peekable.peek?`, `Generator.pop` | `more`/`peek`, `pop` behind `peekable_generator_facade` (`peekable_generator_facade.hpp:36-82`) |
| the instances for `List` | a generator that shares nothing, given by the values it has left to yield |
| `IteratorFromGenerator` | `iterator_from_generator` (`iterator_from_generator.hpp:17-73`), which memoizes one value and so runs one ahead |
| `FiniteUnion` | `finite_union_generator` (`finite_union_generator.hpp:15-91`) |
| `UnionHeap` | `union_heap_generator` (`union_heap_generator.hpp:24-171`) |

`std::priority_queue` is any `HeapAlg`.  The cap `empty_max` of `union_heap_generator` is
`numeric_limits<size_t>::max()` in each of its constructors, more empty generators than there can be,
and is left out.  The loop of `skip_empties` gets fuel; the accounts below carry the size that bounds it.

The second half says how these combinators keep an `Account`: a stake for every generator such that
yielding a value moves the value's part of the stake out and loses nothing.
-/

namespace Sbmt.Gusc

open Sbmt.Lib

/-- `operator bool` and `operator*`. -/
class Peekable (G : Type) (α : outParam Type) where
  peek? : G → Option α

/-- `operator++`. -/
class Generator (σ G : Type) (α : outParam Type) [Peekable G α] where
  pop : G → StateM σ G

export Peekable (peek?)

instance {α : Type} : Peekable (List α) α := ⟨List.head?⟩

instance {σ α : Type} : Generator σ (List α) α := ⟨fun l => pure l.tail⟩

section

variable {σ G Gen α β : Type}

def more [Peekable G α] (g : G) : Bool := (peek? g).isSome

/-- `peek_compare`: an empty generator is less than one that is not. -/
def peekCompare [Peekable G α] (lt : α → α → Bool) (g₁ g₂ : G) : Bool :=
  match peek? g₁, peek? g₂ with
  | none, some _ => true
  | some a, some b => lt a b
  | _, none => false

/-- `compare_current` of the two union generators. The generators in their queues are never empty, so
what it says of an empty one is free. -/
def compareCurrent [Peekable G α] (lt : α → α → Bool) (g₁ g₂ : G) : Bool := peekCompare lt g₁ g₂

/-- All that a generator yields, for at most `fuel` values. -/
def drain [Peekable G α] [Generator σ G α] : Nat → G → StateM σ (List α)
  | 0, _ => pure []
  | fuel + 1, g =>
    match peek? g with
    | none => pure []
    | some a => do
      let g ← Generator.pop g
      let l ← drain fuel g
      return a :: l

/-! ## `transform_generator` under `iterator_from_generator` -/

structure TransformGenerator (G α β : Type) where
  generator : G
  transform : α → β

/-- `operator()`, when the generator has a value `a`. -/
def TransformGenerator.call [Peekable G α] [Generator σ G α] (t : TransformGenerator G α β) (a : α) :
    StateM σ (β × TransformGenerator G α β) := do
  let generator ← Generator.pop t.generator
  return (t.transform a, { t with generator })

structure IteratorFromGenerator (G α β : Type) where
  s : Option (TransformGenerator G α β × β)

/-- `iterator_from_generator(g)`: the first value is taken at once. -/
def IteratorFromGenerator.make [Peekable G α] [Generator σ G α] (t : TransformGenerator G α β) :
    StateM σ (IteratorFromGenerator G α β) :=
  match peek? t.generator with
  | none => pure ⟨none⟩
  | some a => do
    let (result, t) ← t.call a
    return ⟨some (t, result)⟩

instance : Peekable (IteratorFromGenerator G α β) β := ⟨fun i => i.s.map Prod.snd⟩

instance [Peekable G α] [Generator σ G α] : Generator σ (IteratorFromGenerator G α β) β where
  pop i :=
    match i.s with
    | none => pure i
    | some (t, _) => IteratorFromGenerator.make t

/-! ## `finite_union_generator` -/

structure FiniteUnion (H : HeapAlg) (lt : α → α → Bool) (G : Type) where
  heap : List G

variable [Peekable G α] [Generator σ G α] [Peekable Gen G] [Generator σ Gen G] {H : HeapAlg} {fuel : Nat}
  {lt : α → α → Bool}

/-- `generate_finite_union`. -/
def FiniteUnion.make (H : HeapAlg) (lt : α → α → Bool) (rng : List G) : FiniteUnion H lt G :=
  ⟨rng.foldl (fun heap g => if more g then H.push (compareCurrent lt) g heap else heap) []⟩

instance : Peekable (FiniteUnion H lt G) α := ⟨fun f => f.heap.head?.bind peek?⟩

def FiniteUnion.pop (f : FiniteUnion H lt G) : StateM σ (FiniteUnion H lt G) :=
  match f.heap with
  | [] => pure f
  | g :: _ => do
    let heap := H.pop (compareCurrent lt) f.heap
    let g ← Generator.pop g
    return ⟨if more g then H.push (compareCurrent lt) g heap else heap⟩

instance : Generator σ (FiniteUnion H lt G) α := ⟨FiniteUnion.pop⟩

/-! ## `union_heap_generator` -/

/-- `impl_`: the generators seen best go from `gen` through the `window` to the `heap`. -/
structure UnionHeap (H : HeapAlg) (fuel : Nat) (lt : α → α → Bool) (Gen G : Type) where
  gen : Gen
  heap : List G
  window : List G

def skipEmpties : Nat → Gen → StateM σ Gen
  | 0, gen => pure gen
  | n + 1, gen =>
    match peek? gen with
    | none => pure gen
    | some g => if more g then pure gen else Generator.pop gen >>= skipEmpties n

namespace UnionHeap

variable (u : UnionHeap H fuel lt Gen G)

def pushToWindow : StateM σ (UnionHeap H fuel lt Gen G) := do
  let u ← match peek? u.gen with
    | none => pure u
    | some g => do
      let gen ← Generator.pop u.gen
      pure { u with gen, window := H.push (compareCurrent lt) g u.window }
  let gen ← skipEmpties fuel u.gen
  return { u with gen }

/-- The first loop of `push_to_heap`. -/
def moveWindow : Nat → UnionHeap H fuel lt Gen G → UnionHeap H fuel lt Gen G
  | 0, u => u
  | n + 1, u =>
    match u.window with
    | [] => u
    | g :: _ => moveWindow n
        { u with heap := H.push (compareCurrent lt) g u.heap, window := H.pop (compareCurrent lt) u.window }

/-- `push_to_window` so many times. -/
def refill : Nat → UnionHeap H fuel lt Gen G → StateM σ (UnionHeap H fuel lt Gen G)
  | 0, u => pure u
  | n + 1, u => pushToWindow u >>= refill n

def pushToHeap : StateM σ (UnionHeap H fuel lt Gen G) :=
  refill u.window.length (moveWindow u.window.length u)

def init (H : HeapAlg) (fuel : Nat) (lt : α → α → Bool) (gen : Gen) (lookahead : Nat) :
    StateM σ (UnionHeap H fuel lt Gen G) := do
  let gen ← skipEmpties fuel gen
  let u ← refill lookahead { gen, heap := [], window := [] }
  pushToHeap u

/-- Is it time to open the window: the heap is used up, or its best is worse than the window's. -/
def windowDue : Bool :=
  match u.window, u.heap with
  | [], _ => false
  | _ :: _, [] => true
  | w :: _, g :: _ => compareCurrent lt g w

def increment : StateM σ (UnionHeap H fuel lt Gen G) :=
  match u.heap with
  | [] => pure u
  | g :: _ => do
    let heap := H.pop (compareCurrent lt) u.heap
    let g ← Generator.pop g
    let u := { u with heap := if more g then H.push (compareCurrent lt) g heap else heap }
    if u.windowDue then pushToHeap u else pure u

end UnionHeap

instance : Peekable (UnionHeap H fuel lt Gen G) α := ⟨fun u => u.heap.head?.bind peek?⟩

instance : Generator σ (UnionHeap H fuel lt Gen G) α := ⟨UnionHeap.increment⟩

/-! ## Unions of generators that share nothing -/

/-- A run that has no claims to share. -/
def alone (m : StateM (Finset Empty) β) : β := (m ∅).1

/-- As many moves as the generators of a range can make. -/
def lengthBound (gens : List (List α)) : Nat := (gens.map fun l => l.length + 1).sum

/-- `generate_union_heap` over generators that share nothing, run to the end. -/
def unionHeap (H : HeapAlg) (lt : α → α → Bool) (gens : List (List α)) (lookahead : Nat) : List α :=
  alone (do
    let u ← UnionHeap.init H (lengthBound gens) lt gens lookahead
    drain (lengthBound gens) u)

/-- `generate_finite_union` over generators that share nothing, run to the end. -/
def finiteUnion (H : HeapAlg) (lt : α → α → Bool) (gens : List (List α)) : List α :=
  alone (drain (lengthBound gens) (FiniteUnion.make H lt gens))

end

end Sbmt.Gusc
