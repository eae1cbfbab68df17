import Sbmt.Grammar.Alignment
import Sbmt.Lib.Phrase
/-!
# Inverting, printing and reading word alignments (`sbmt_decoder/include/sbmt/grammar/alignment.hpp`)

| here | there |
| --- | --- |
| `links` | the two loops over `sa`, as in `visit` (`alignment.hpp:105-112`) |
| `push`, `setInverse` | `set_inverse` (`:300-306`) |
| `shift`, `printPairs`, `print` | `offset_printer`, `print_pairs_custom`, `print_custom` (`:125-154`, `:165-176`, `:202-213`) |
| `nextChar`, `expectCh`, `expectChSpace`, `readIndex` | `in >> c`, `EXPECTCH`, `EXPECTCH_SPACE`, `EXPECTI(in >> src)` (`graehl/shared/genio.h:375-381`) |

`WORDY_ALIGNMENT_IO` is not defined.  `none` is a thrown `genio_exception` or `alignment_out_of_range`, and in `push` a
write behind the end of a vector.

`gather` is the alignment with given links; inverting and reading both make one.
-/

namespace Sbmt.Grammar.Alignment

open Sbmt.Lib.Phrase List

variable (a : Alignment)

/-- All pairs, in the order of the loops over them. -/
def links : List (Nat × Nat) := (range a.nSrc).flatMap fun i => (a.tarsOf i).map fun t => (i, t)

def sort : Alignment := { a with sa := a.sa.map fun s => s.insertionSort (· ≤ ·) }

/-- `sa[s].push_back(t)`. -/
def push (s t : Nat) : Option Alignment :=
  if s < a.nSrc then some { a with sa := a.sa.modify s (· ++ [t]) } else none

/-- Sizes and links with source and target swapped. -/
def setInverse (o : Alignment) : Option Alignment :=
  o.links.foldlM (fun a link => a.push link.2 link.1) (setEmpty o.ntar o.nSrc)

/-! ## The text -/

/-- `s+src_offset`: the sum of an `unsigned` and an `int` is an `unsigned`. -/
def shift (s : Nat) (offset : Int) : Nat := ((s + offset) % 2 ^ 32).toNat

variable (srcOffset tarOffset : Int)

def printPair (link : Nat × Nat) : Text :=
  showNat (shift link.1 srcOffset) ++ ',' :: showNat (shift link.2 tarOffset)

/-- With a space before each pair but the first. -/
def printPairs : Text :=
  intercalate [' '] (a.sort.links.map (printPair srcOffset tarOffset))

def print : Text :=
  '[' :: "#s=".toList ++ showNat (word a.nSrc) ++ " #t=".toList ++ showNat a.ntar ++ ' ' ::
    printPairs a srcOffset tarOffset ++ [']']

/-- `in >> c`. -/
def nextChar (t : Text) : Option (Char × Text) :=
  match t.dropWhile isSpace with
  | [] => none
  | c :: t => some (c, t)

def expectCh (a : Char) : Text → Option Text
  | [] => none
  | c :: t => if c = a then some t else none

def expectChSpace (a : Char) (t : Text) : Option Text := (nextChar t).bind fun (c, t) => if c = a then some t else none

/-- A number that an `unsigned` can hold.  At the end of the text the stream is not `good` any more. -/
def readNumber (t : Text) : Option (Nat × Text) :=
  (readBelow (2 ^ 32) t).bind fun (n, t) => if t = [] then none else some (n, t)

/-- The number may have a sign; a negative one wraps around. -/
def readIndex (t : Text) : Option (Nat × Text) :=
  match t.dropWhile isSpace with
  | '+' :: t => readNumber t
  | '-' :: t => (readNumber t).map fun (n, t) => ((2 ^ 32 - n) % 2 ^ 32, t)
  | t => readNumber t

/-- Each round takes a character at least, so the length of the text bounds their number. -/
def readPairs : Nat → Alignment → Text → Option (Alignment × Text)
  | 0, _, _ => none
  | fuel + 1, a, t =>
    (nextChar t).bind fun (c, rest) =>
      if c = ']' then some (a, c :: rest)
      else
        (readIndex (c :: rest)).bind fun (src, t) =>
          (expectCh ',' t).bind fun t =>
            (readIndex t).bind fun (tar, t) =>
              (a.add src tar).bind fun a => readPairs fuel a t

def read (t : Text) : Option (Alignment × Text) :=
  (expectChSpace '[' t).bind fun t =>
    (expectChSpace '#' t).bind fun t => (expectCh 's' t).bind fun t => (expectChSpace '=' t).bind fun t =>
      (readIndex t).bind fun (nsrc, t) =>
        (expectChSpace '#' t).bind fun t => (expectCh 't' t).bind fun t => (expectChSpace '=' t).bind fun t =>
          (readIndex t).bind fun (ntar, t) =>
            (readPairs (t.length + 1) (setEmpty nsrc ntar) t).bind fun (a, t) =>
              (expectChSpace ']' t).map fun t => (a, t)

/-! ## Alignments with given links -/

/-- The alignment with these sizes and these links. -/
def gather (nSrc nTar : Nat) (l : List (Nat × Nat)) : Alignment :=
  ⟨nTar, (range nSrc).map fun s => (l.filter fun link => link.1 = s).map Prod.snd⟩

section

variable {a b : Alignment} {i m n s t : Nat} {l : List (Nat × Nat)}

@[simp] theorem nSrc_gather : (gather n m l).nSrc = n := by simp [gather, nSrc]

@[simp] theorem ntar_gather : (gather n m l).ntar = m := rfl

theorem tarsOf_gather (hs : s < n) : (gather n m l).tarsOf s = (l.filter fun link => link.1 = s).map Prod.snd := by
  simp [tarsOf, gather, getElem?_range hs]

/-- An alignment is known by its sizes and what each position is aligned to. -/
theorem ext_tarsOf (hn : a.nSrc = b.nSrc) (hm : a.ntar = b.ntar) (h : ∀ s < a.nSrc, a.tarsOf s = b.tarsOf s) : a = b := by
  have hsa : a.sa = b.sa := by
    apply ext_getElem?
    intro s
    by_cases hs : s < a.nSrc
    · rw [tarsOf_eq hs, tarsOf_eq (hn ▸ hs), h s hs]
    · have hs' : ¬ s < b.nSrc := hn ▸ hs
      rw [getElem?_eq_none (Nat.le_of_not_lt hs), getElem?_eq_none (Nat.le_of_not_lt hs')]
  cases a
  cases hm
  cases hsa
  rfl

theorem gather_nil : gather n m [] = setEmpty n m := by
  simp [gather, setEmpty, map_const']

theorem push_gather (hs : s < n) : (gather n m l).push s t = some (gather n m (l ++ [(s, t)])) := by
  rw [push, nSrc_gather, if_pos hs]
  congr 1
  refine ext_tarsOf (by simp [nSrc, gather]) rfl fun j hj => ?_
  have hj : j < n := by simpa [nSrc, gather] using hj
  by_cases h : s = j
  · subst h
    simp [tarsOf, gather, getElem?_range hs]
  · simp [tarsOf, gather, getElem?_range hj, h]

/-- Pushing links one after the other. -/
theorem foldlM_push {f : α → Nat × Nat} {x : List α} (hx : ∀ e ∈ x, (f e).1 < n) :
    x.foldlM (fun a e => push a (f e).1 (f e).2) (gather n m l) = some (gather n m (l ++ x.map f)) := by
  induction x generalizing l with
  | nil => simp
  | cons e x ih =>
    rw [foldlM_cons, push_gather (hx e mem_cons_self)]
    show x.foldlM (fun a e => push a (f e).1 (f e).2) (gather n m (l ++ [f e])) = _
    rw [ih fun e' he' => hx e' (mem_cons_of_mem e he'), append_assoc]
    rfl

theorem mem_links : (s, t) ∈ a.links ↔ t ∈ a.tarsOf s := by
  simp only [links, mem_flatMap, mem_range, mem_map, Prod.mk.injEq]
  constructor
  · rintro ⟨i, _, u, hu, rfl, rfl⟩
    exact hu
  · intro ht
    refine ⟨s, ?_, t, ht, rfl, rfl⟩
    by_contra hs
    rw [tarsOf, getElem?_eq_none (Nat.le_of_not_lt hs)] at ht
    cases ht

theorem lt_of_mem_links (h : (s, t) ∈ a.links) : s < a.nSrc := by
  by_contra hs
  rw [mem_links, tarsOf, getElem?_eq_none (Nat.le_of_not_lt hs)] at h
  cases h

/-- Among the links those of one position stand together. -/
theorem filter_links (hs : s < a.nSrc) : (a.links.filter fun link => link.1 = s).map Prod.snd = a.tarsOf s := by
  have hrow : ∀ i, ((a.tarsOf i).map fun t => (i, t)).filter (fun link => link.1 = s) =
      if i = s then (a.tarsOf i).map fun t => (i, t) else [] := by
    intro i
    by_cases h : i = s
    · simp [h]
    · simp [h]
  have hone : ∀ n, s < n →
      ((range n).flatMap fun i => if i = s then (a.tarsOf i).map fun t => (i, t) else []) =
        (a.tarsOf s).map fun t => (s, t) := by
    intro n
    induction n with
    | zero => intro h; exact absurd h (Nat.not_lt_zero s)
    | succ n ih =>
      intro h
      rw [range_succ, flatMap_append]
      by_cases hn : n = s
      · subst hn
        have hbefore : ∀ i ∈ range n, (if i = n then (a.tarsOf i).map fun t => (i, t) else []) = [] := by
          intro i hi
          rw [if_neg (mem_range.mp hi).ne]
        simp [flatMap_eq_nil_iff.mpr hbefore]
      · rw [ih (by omega)]
        simp [hn]
  rw [links, filter_flatMap]
  simp only [hrow]
  rw [hone a.nSrc hs, map_map]
  exact map_id _

theorem gather_links (a : Alignment) : gather a.nSrc a.ntar a.links = a := by
  refine ext_tarsOf nSrc_gather rfl fun s hs => ?_
  rw [nSrc_gather] at hs
  rw [tarsOf_gather hs, filter_links hs]

/-- Gathering loses no link. -/
theorem links_gather (hl : ∀ link ∈ l, link.1 < n) : (gather n m l).links.Perm l := by
  have hbelow : ∀ k, ((range k).flatMap fun i => l.filter fun link => link.1 = i).Perm
      (l.filter fun link => link.1 < k) := by
    intro k
    induction k with
    | zero => simp
    | succ k ih =>
      have hlow : (l.filter fun link => link.1 < k + 1).filter (fun link => link.1 < k) = l.filter fun link => link.1 < k := by
        rw [filter_filter]
        refine filter_congr fun link _ => ?_
        rw [← Bool.decide_and, decide_eq_decide]
        omega
      have hhigh : (l.filter fun link => link.1 < k + 1).filter (fun link => !decide (link.1 < k)) =
          l.filter fun link => link.1 = k := by
        rw [filter_filter]
        refine filter_congr fun link _ => ?_
        rw [← decide_not, ← Bool.decide_and, decide_eq_decide]
        omega
      have hsplit := filter_append_perm (fun link : Nat × Nat => link.1 < k) (l.filter fun link => link.1 < k + 1)
      rw [hlow, hhigh] at hsplit
      rw [range_succ, flatMap_append, flatMap_singleton]
      exact (ih.append_right _).trans hsplit
  have hrow : (gather n m l).links = (range n).flatMap fun i => l.filter fun link => link.1 = i := by
    rw [links, nSrc_gather, flatMap_def]
    congr 1
    refine map_congr_left fun i hi => ?_
    rw [tarsOf_gather (mem_range.mp hi), map_map]
    refine (map_congr_left fun link hlink => ?_).trans (map_id _)
    have hi : link.1 = i := of_decide_eq_true (mem_filter.mp hlink).2
    rw [← hi]
    rfl
  have hall : (l.filter fun link => link.1 < n) = l := filter_eq_self.mpr fun link h => decide_eq_true (hl link h)
  have hpieces := hbelow n
  rw [hall] at hpieces
  rw [hrow]
  exact hpieces

/-- Links come in the order of their sources. -/
theorem links_pairwise (a : Alignment) : a.links.Pairwise fun x y => x.1 ≤ y.1 := by
  rw [links, pairwise_flatMap]
  constructor
  · intro i _
    rw [pairwise_map]
    exact pairwise_of_forall fun _ _ => le_rfl
  · refine pairwise_lt_range.imp fun hlt x hx y hy => ?_
    obtain ⟨_, _, rfl⟩ := mem_map.mp hx
    obtain ⟨_, _, rfl⟩ := mem_map.mp hy
    exact Nat.le_of_lt hlt

/-! ## Sorting -/

@[simp] theorem nSrc_sort : a.sort.nSrc = a.nSrc := by simp [sort, nSrc]

@[simp] theorem ntar_sort : a.sort.ntar = a.ntar := rfl

theorem tarsOf_sort : a.sort.tarsOf s = (a.tarsOf s).insertionSort (· ≤ ·) := by
  unfold tarsOf sort
  rw [getElem?_map]
  cases a.sa[s]? with
  | none => rfl
  | some tars => rfl

theorem mem_links_sort : (s, t) ∈ a.sort.links ↔ (s, t) ∈ a.links := by
  rw [mem_links, mem_links, tarsOf_sort, mem_insertionSort]

theorem WellFormed.lt_of_mem_links (h : a.WellFormed) (hmem : (s, t) ∈ a.links) : t < a.ntar :=
  h.tarsOf_lt (mem_links.mp hmem)

/-! ## Inverting -/

/-- The inverse as it should be. -/
def transpose (a : Alignment) : Alignment := gather a.ntar a.nSrc (a.links.map Prod.swap)

@[simp] theorem nSrc_transpose : a.transpose.nSrc = a.ntar := nSrc_gather

@[simp] theorem ntar_transpose : a.transpose.ntar = a.nSrc := rfl

section

variable (h : ∀ link ∈ a.links, link.2 < a.ntar)
include h

theorem setInverse_eq : a.setInverse = some a.transpose := by
  have hpush := foldlM_push (l := []) (m := a.nSrc) (f := Prod.swap) h
  rw [gather_nil] at hpush
  exact hpush

theorem links_transpose : a.transpose.links.Perm (a.links.map Prod.swap) := by
  refine links_gather fun link hlink => ?_
  obtain ⟨link', hlink', rfl⟩ := mem_map.mp hlink
  exact h link' hlink'

theorem mem_links_transpose : (t, s) ∈ a.transpose.links ↔ (s, t) ∈ a.links := by
  rw [(links_transpose h).mem_iff, mem_map]
  constructor
  · rintro ⟨⟨_, _⟩, hmem, heq⟩
    cases heq
    exact hmem
  · intro hmem
    exact ⟨(s, t), hmem, rfl⟩

/-- Inverting twice sorts: the targets of a position come out in the order of the first inverse's positions. -/
theorem transpose_transpose : a.transpose.transpose = a.sort := by
  refine ext_tarsOf (by simp) (by simp) fun s hs => ?_
  have hs : s < a.nSrc := by simpa using hs
  have hperm : (a.transpose.links.map Prod.swap).Perm a.links := by
    have hswap := (links_transpose h).map Prod.swap
    rwa [map_map, Prod.swap_swap_eq, map_id] at hswap
  rw [transpose, ntar_transpose, tarsOf_gather hs, tarsOf_sort]
  refine Perm.eq_of_pairwise' ?_ (pairwise_insertionSort _ _) ?_
  · rw [pairwise_map]
    refine List.Pairwise.sublist filter_sublist ?_
    rw [pairwise_map]
    exact links_pairwise a.transpose
  · refine Perm.trans ?_ (perm_insertionSort _ _).symm
    rw [← filter_links hs]
    exact (hperm.filter _).map _

end

/-! ## Reading what was printed -/

theorem shift_zero (h : n < 2 ^ 32) : shift n 0 = n := by
  rw [shift]
  omega

variable {c : Char}

theorem nextChar_of_not_space (hc : isSpace c = false) (x : Text) : nextChar (c :: x) = some (c, x) := by
  simp [nextChar, hc]

theorem nextChar_space (x : Text) : nextChar (' ' :: x) = nextChar x := rfl

theorem expectChSpace_self (hc : isSpace c = false) (x : Text) : expectChSpace c (c :: x) = some x := by
  simp [expectChSpace, nextChar_of_not_space hc]

theorem expectChSpace_space (c : Char) (x : Text) : expectChSpace c (' ' :: x) = expectChSpace c x := rfl

theorem expectCh_self (c : Char) (x : Text) : expectCh c (c :: x) = some x := if_pos rfl

theorem isDigit_not_space (hc : c.isDigit = true) : isSpace c = false := by
  have h : ∀ d : Char, isSpace d = true → d.isDigit = false := by
    intro d hd
    simp only [isSpace, Bool.or_eq_true, decide_eq_true_eq] at hd
    rcases hd with ((((rfl | rfl) | rfl) | rfl) | rfl) | rfl <;> rfl
  by_contra hspace
  rw [h c (by simpa using hspace)] at hc
  cases hc

/-- What follows a printed number is a character that is none of its digits. -/
theorem readIndex_showNat (hn : n < 2 ^ 32) (hc : c.isDigit = false) (x : Text) :
    readIndex (showNat n ++ c :: x) = some (n, c :: x) := by
  have hread : readNumber (showNat n ++ c :: x) = some (n, c :: x) := by
    rw [readNumber, readBelow_showNat hn (by simpa using hc)]
    rfl
  obtain ⟨d, w, hw, hd⟩ := exists_showNat n
  rw [hw, cons_append] at hread ⊢
  rw [readIndex, dropWhile_cons, isDigit_not_space hd]
  split
  · rename_i heq
    rw [(List.cons.inj heq).1] at hd
    exact absurd hd (by decide)
  · rename_i heq
    rw [(List.cons.inj heq).1] at hd
    exact absurd hd (by decide)
  · exact hread

theorem add_gather (hs : s < n) (ht : t < m) : (gather n m l).add s t = some (gather n m (l ++ [(s, t)])) := by
  rw [← push_gather hs, add, push, nSrc_gather, if_pos ⟨hs, ht⟩, if_pos hs]

/-- One round reads one pair. -/
theorem readPairs_pair (hn : n ≤ 2 ^ 32) (hm : m ≤ 2 ^ 32) (hs : s < n) (ht : t < m) (fuel : Nat)
    (hc : c.isDigit = false) (x : Text) :
    readPairs (fuel + 1) (gather n m l) (' ' :: printPair 0 0 (s, t) ++ c :: x) =
      readPairs fuel (gather n m (l ++ [(s, t)])) (c :: x) := by
  have htext : ' ' :: printPair 0 0 (s, t) ++ c :: x = ' ' :: (showNat s ++ ',' :: (showNat t ++ c :: x)) := by
    simp [printPair, shift_zero (hs.trans_le hn), shift_zero (ht.trans_le hm)]
  obtain ⟨d, w, hw, hd⟩ := exists_showNat s
  have hnext : nextChar (showNat s ++ ',' :: (showNat t ++ c :: x)) = some (d, w ++ ',' :: (showNat t ++ c :: x)) := by
    rw [hw]
    exact nextChar_of_not_space (isDigit_not_space hd) _
  have hbracket : d ≠ ']' := fun h => by rw [h] at hd; exact absurd hd (by decide)
  rw [htext, readPairs, nextChar_space, hnext, Option.bind_some]
  dsimp only
  rw [if_neg hbracket, ← cons_append, ← hw, readIndex_showNat (hs.trans_le hn) (by decide), Option.bind_some]
  rw [expectCh_self, Option.bind_some, readIndex_showNat (ht.trans_le hm) hc, Option.bind_some]
  rw [add_gather hs ht, Option.bind_some]

/-- The pairs behind a space each, up to the bracket. -/
theorem readPairs_links (hn : n ≤ 2 ^ 32) (hm : m ≤ 2 ^ 32) {x : List (Nat × Nat)} (hx : ∀ link ∈ x, link.1 < n ∧ link.2 < m)
    {fuel : Nat} (hfuel : x.length < fuel) (gap : Text) (hgap : gap = [] ∨ gap = [' ']) (rest : Text) :
    readPairs fuel (gather n m l) (x.flatMap (fun link => ' ' :: printPair 0 0 link) ++ gap ++ ']' :: rest) =
      some (gather n m (l ++ x), ']' :: rest) := by
  induction x generalizing l fuel with
  | nil =>
    obtain ⟨fuel, rfl⟩ : ∃ k, fuel = k + 1 := ⟨fuel - 1, by simp at hfuel; omega⟩
    rcases hgap with rfl | rfl
    · simp [readPairs, nextChar, isSpace]
    · simp [readPairs, nextChar, isSpace]
  | cons link x ih =>
    obtain ⟨fuel, rfl⟩ : ∃ k, fuel = k + 1 := ⟨fuel - 1, by simp at hfuel; omega⟩
    obtain ⟨hs, ht⟩ := hx link mem_cons_self
    obtain ⟨c, y, htail, hc⟩ : ∃ c y, x.flatMap (fun link => ' ' :: printPair 0 0 link) ++ gap ++ ']' :: rest = c :: y ∧
        c.isDigit = false := by
      cases x with
      | cons link' x => exact ⟨' ', _, rfl, by decide⟩
      | nil =>
        rcases hgap with rfl | rfl
        · exact ⟨']', _, rfl, by decide⟩
        · exact ⟨' ', _, rfl, by decide⟩
    have hfuel : x.length < fuel := by simpa using hfuel
    have hih := ih (l := l ++ [link]) (fun link' h => hx link' (mem_cons_of_mem _ h)) hfuel
    rw [flatMap_cons, append_assoc, append_assoc, ← append_assoc _ gap, htail,
      readPairs_pair hn hm hs ht fuel hc, ← htail, hih, append_assoc]
    rfl

/-- Between the target size and the bracket: a space before each pair, or one alone. -/
theorem space_printPairs (x : List (Nat × Nat)) : ∃ gap : Text, (gap = [] ∨ gap = [' ']) ∧
    ' ' :: intercalate [' '] (x.map (printPair 0 0)) = x.flatMap (fun link => ' ' :: printPair 0 0 link) ++ gap := by
  cases x with
  | nil => exact ⟨[' '], .inr rfl, rfl⟩
  | cons link x =>
    refine ⟨[], .inl rfl, ?_⟩
    rw [append_nil]
    induction x generalizing link with
    | nil => simp [intercalate]
    | cons link' x ih =>
      rw [flatMap_cons, ← ih link']
      simp [intercalate]

theorem length_le_flatMap (x : List (Nat × Nat)) :
    x.length ≤ (x.flatMap fun link => ' ' :: printPair 0 0 link).length := by
  induction x with
  | nil => exact Nat.le_refl 0
  | cons link x ih =>
    rw [flatMap_cons, length_append, length_cons, length_cons]
    omega

/-- What is read back is sorted, and nothing of the text is left. -/
theorem read_print (h : a.WellFormed) (hn : a.nSrc < 2 ^ 32) : read (a.print 0 0) = some (a.sort, []) := by
  have hlinks : ∀ link ∈ a.sort.links, link.1 < a.nSrc ∧ link.2 < a.ntar := by
    rintro ⟨s, t⟩ hlink
    rw [mem_links_sort] at hlink
    exact ⟨lt_of_mem_links hlink, h.lt_of_mem_links hlink⟩
  obtain ⟨gap, hgap, hpairs⟩ := space_printPairs a.sort.links
  have htext : a.print 0 0 = '[' :: '#' :: 's' :: '=' :: (showNat a.nSrc ++ ' ' :: '#' :: 't' :: '=' :: (showNat a.ntar ++
      ' ' :: (printPairs a 0 0 ++ [']']))) := by
    simp [print, word_of_lt hn]
  have hrest : readPairs ((' ' :: (printPairs a 0 0 ++ [']'])).length + 1) (setEmpty a.nSrc a.ntar)
      (' ' :: (printPairs a 0 0 ++ [']'])) = some (a.sort, [']']) := by
    have hbody : ' ' :: (printPairs a 0 0 ++ [']']) =
        a.sort.links.flatMap (fun link => ' ' :: printPair 0 0 link) ++ gap ++ [']'] := by
      rw [← hpairs]
      rfl
    have hlen := length_le_flatMap a.sort.links
    rw [hbody, ← gather_nil, readPairs_links hn.le h.ntar_lt.le hlinks ?_ gap hgap, nil_append]
    · have hsort := gather_links a.sort
      rw [nSrc_sort, ntar_sort] at hsort
      rw [hsort]
    · rw [length_append, length_append]
      omega
  rw [read, htext, expectChSpace_self rfl, Option.bind_some, expectChSpace_self rfl, Option.bind_some, expectCh_self,
    Option.bind_some, expectChSpace_self rfl, Option.bind_some, readIndex_showNat hn rfl, Option.bind_some]
  dsimp only
  rw [expectChSpace_space, expectChSpace_self rfl, Option.bind_some, expectCh_self,
    Option.bind_some, expectChSpace_self rfl, Option.bind_some, readIndex_showNat h.ntar_lt rfl, Option.bind_some]
  rw [hrest]
  rfl

/-- Two alignments are equal when they are once sorted. -/
def eq (a b : Alignment) : Bool := a.ntar = b.ntar ∧ a.sort.sa = b.sort.sa

theorem sort_sort (a : Alignment) : a.sort.sort = a.sort := by
  refine ext_tarsOf (by simp) rfl fun s _ => ?_
  rw [tarsOf_sort, tarsOf_sort]
  exact (pairwise_insertionSort _ _).insertionSort_eq

/-- **Inverting twice and reading what was printed both give the alignment back**, equal as `operator==` has it: with its
sizes and its links, of which those of one position may have changed places.  The inverse has the sizes swapped, and the
links. -/
theorem inverse_and_text (a : Alignment) (h : a.WellFormed) (hn : a.nSrc < 2 ^ 32) :
    (∃ b, a.setInverse = some b ∧ b.nSrc = a.ntar ∧ b.ntar = a.nSrc ∧ (∀ s t, (t, s) ∈ b.links ↔ (s, t) ∈ a.links) ∧
      ∃ c, b.setInverse = some c ∧ eq c a ∧ c.nSrc = a.nSrc ∧ c.ntar = a.ntar ∧
        ∀ s t, (s, t) ∈ c.links ↔ (s, t) ∈ a.links) ∧
    ∃ c, read (a.print 0 0) = some (c, []) ∧ eq c a ∧ c.nSrc = a.nSrc ∧ c.ntar = a.ntar ∧
      ∀ s t, (s, t) ∈ c.links ↔ (s, t) ∈ a.links := by
  have hlinks : ∀ link ∈ a.links, link.2 < a.ntar := fun link hlink => h.lt_of_mem_links hlink
  have hback : ∀ link ∈ a.transpose.links, link.2 < a.transpose.ntar := by
    rintro ⟨t, s⟩ hlink
    exact lt_of_mem_links ((mem_links_transpose hlinks).mp hlink)
  have hsame : eq a.sort a ∧ a.sort.nSrc = a.nSrc ∧ a.sort.ntar = a.ntar ∧
      ∀ s t, (s, t) ∈ a.sort.links ↔ (s, t) ∈ a.links :=
    ⟨by simp [eq, sort_sort], nSrc_sort, ntar_sort, fun s t => mem_links_sort⟩
  refine ⟨⟨a.transpose, setInverse_eq hlinks, nSrc_transpose, ntar_transpose, fun s t => mem_links_transpose hlinks,
    a.sort, ?_, hsame⟩, a.sort, read_print h hn, hsame⟩
  rw [setInverse_eq hback, transpose_transpose hlinks]

/-- Links out of order, and the last position of either side aligned to nothing. -/
theorem inverse_and_text_unaligned :
    let a : Alignment := ⟨5, [[3], [2, 1], [0], []]⟩
    a.print 0 0 = "[#s=4 #t=5 0,3 1,1 1,2 2,0]".toList ∧
      (∃ c, read (a.print 0 0) = some (c, []) ∧ eq c a) ∧
      ∃ b, a.setInverse = some b ∧ b.nSrc = 5 ∧ (2, 1) ∈ b.links := by
  intro a
  have hwf : a.WellFormed := ⟨by decide, by decide⟩
  obtain ⟨⟨b, hb, hn, _, hlinks, _⟩, c, hread, heq, _⟩ := inverse_and_text a hwf (by decide)
  exact ⟨by decide, ⟨c, hread, heq⟩, b, hb, hn, (hlinks 1 2).mpr (by decide)⟩

end

end Sbmt.Grammar.Alignment
