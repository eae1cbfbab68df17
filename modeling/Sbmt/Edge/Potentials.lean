import Sbmt.Edge.LazyJoin
import Sbmt.Edge.SpanString
/-!
# The span strings of a language-model string (`sbmt_decoder/include/sbmt/search/impl/force_sentence_filter.ipp:196-281`)

| here | there |
| --- | --- |
| `suffixContainer`, `matchSpans` | `substring_hash_match`: `init` and `operator()` (`hash/substring_hash.hpp:106-131`, `:191-205`) |
| `wordRuns`, `potentials` | the first loop of `span_strings_from_lm_string` (`force_sentence_filter.ipp:246-257`) |
| `spanStringsFromPotentials` | `:196-234`; the string comes back with what was written |
| `spanStringsFromLmString` | `:238-281` |

`none` is where something throws, an assertion fails, or a position of the target does not fit in 16 bits.  The matches
of a run come out of the hash table in some order; they are sorted before anything is done with them.

A span string stands for all ways of reading the string off the target where each run of words is at one of its places
and each child at its own (`Spells`): not where the words of the child are found again.
-/

namespace Sbmt.Edge

open Sbmt.Xrs Sbmt.Lib List
open Sbmt.Search (Span ushrtMax)
open SpanString

variable {T : Type}

/-- The words of the target from `l` to `r`. -/
def slice (text : List T) (l r : Nat) : List T := (text.drop l).take (r - l)

def spanT (l r : Nat) : Option Span := if h : l ≤ r ∧ r ≤ ushrtMax then some ⟨l, r, h.1, h.2⟩ else none

/-- The ends of the substrings that are not empty, in the order they are inserted. -/
def substringEnds (n : Nat) : List (Nat × Nat) :=
  (range n).flatMap fun left => (range' (left + 1) (n - left)).map fun right => (left, right)

def suffixContainer (text : List T) : Option (List (List T × Span)) := do
  let empty ← (spanT 0 0).map fun s => ([], s)
  let rest ← (substringEnds text.length).mapM fun p => (spanT p.1 p.2).map fun s => (slice text p.1 p.2, s)
  some (empty :: rest)

variable (suffixC : List (List T × Span))

def matchSpans [DecidableEq T] (words : List T) : List Span :=
  (suffixC.filter fun e => e.1 == words).map Prod.snd

/-- `operator<` of spans. -/
def spanBefore (a b : Span) : Bool := decide (a.left < b.left) || (a.left == b.left && decide (a.right < b.right))

/-- The runs of words; `cur` is read already. -/
def wordRuns : List T → List (LmToken T) → List (List T)
  | cur, [] => if cur.isEmpty then [] else [cur]
  | cur, .index _ :: lm => (if cur.isEmpty then [] else [cur]) ++ wordRuns [] lm
  | cur, .token t :: lm => wordRuns (cur ++ [t]) lm

/-- `none`: "this rule cant match". -/
def potentials [DecidableEq T] (lm : List (LmToken T)) : Option (List (List Span)) :=
  (wordRuns [] lm).mapM fun words =>
    let found := matchSpans suffixC words
    if found.isEmpty then none else some (found.insertionSort fun a b => spanBefore b a = false)

def startsWithToken : List (LmToken T) → Bool
  | .token _ :: _ => true
  | _ => false

def spanStringsFromPotentials : List (LmToken T) → List (List Span) → Nat → SpanString → List SpanString →
    Option (SpanString × List SpanString)
  | [], _, _, str, out => some (str, out ++ [str])
  | .index i :: lm, pots, idx, str, out => do
    let str ← pushBack str (.index i)
    let r ← spanStringsFromPotentials lm pots idx str out
    some (popBack r.1, r.2)
  | .token _ :: lm, pots, idx, str, out =>
    -- on to the end of the run
    if startsWithToken lm then spanStringsFromPotentials lm pots idx str out
    else
      match pots with
      | [] => none
      | p :: pots =>
        (p.dropWhile fun s => decide (s.left < idx)).foldlM (fun acc s => do
          let tok ← token s
          let str ← pushBack acc.1 tok
          let r ← spanStringsFromPotentials lm pots s.right str acc.2
          let str ← popBackSpan r.1 s
          some (str, r.2)) (str, out)

/-- The string of a language-model string that has no words. -/
def variableString : List (LmToken T) → SpanString → Option SpanString
  | [], str => some str
  | .index i :: lm, str => (pushBack str (.index i)).bind (variableString lm)
  | .token _ :: _, _ => none

def spanStringsFromLmString [DecidableEq T] (lm : List (LmToken T)) :
    Option (List SpanString) :=
  match potentials suffixC lm with
  | none => some []
  | some pots =>
    if pots.isEmpty then (variableString lm []).map fun str => [str]
    else (spanStringsFromPotentials lm pots 0 [] []).map Prod.snd

/-- The language-model string read off the target from `a` to `b`: a word is the next word, and a child that is not
empty the next span. -/
def Spells (text : List T) (children : List Span) : List (LmToken T) → Nat → Nat → Prop
  | [], a, b => a = b
  | .token t :: lm, a, b => text[a]? = some t ∧ Spells text children lm (a + 1) b
  | .index i :: lm, a, b =>
    ∃ s, children[i]? = some s ∧
      (s.length = 0 ∧ Spells text children lm a b ∨ s.length ≠ 0 ∧ s.left = a ∧ Spells text children lm s.right b)

/-- What `span_strings_from_potentials` writes behind the string it is given. -/
def choices : List (LmToken T) → List (List Span) → Nat → List SpanString
  | [], _, _ => [[]]
  | .index i :: lm, pots, idx => (choices lm pots idx).map (.index i :: ·)
  | .token _ :: lm, pots, idx =>
    if startsWithToken lm then choices lm pots idx
    else
      match pots with
      | [] => []
      | p :: pots =>
        (p.dropWhile fun s => decide (s.left < idx)).flatMap fun s => (choices lm pots s.right).map (.span s :: ·)

/-- The number of runs. -/
def runs : List (LmToken T) → Nat
  | [] => 0
  | .index _ :: lm => runs lm
  | .token _ :: lm => if startsWithToken lm then runs lm else runs lm + 1

example : (suffixContainer [1, 2, 1, 2]).bind (spanStringsFromLmString · [.token 1, .index 0, .token 2]) =
    some [[.span ⟨0, 1, by decide, by decide⟩, .index 0, .span ⟨1, 2, by decide, by decide⟩],
      [.span ⟨0, 1, by decide, by decide⟩, .index 0, .span ⟨3, 4, by decide, by decide⟩],
      [.span ⟨2, 3, by decide, by decide⟩, .index 0, .span ⟨3, 4, by decide, by decide⟩]] := by decide

/-! ## The string that is pushed and popped -/

section

variable {str : SpanString} {s : Span} {i : Nat}

theorem pushBack_index (str : SpanString) (i : Nat) : pushBack str (.index i) = some (str ++ [.index i]) := by
  unfold pushBack
  split
  · rename_i heq
    cases heq
  · rfl

theorem pushBack_span (h : ∀ t, str.getLast? ≠ some (.span t)) (s : Span) :
    pushBack str (.span s) = some (str ++ [.span s]) := by
  unfold pushBack
  split
  · rename_i hlast _
    exact absurd hlast (h _)
  · rfl

theorem popBack_concat (str : SpanString) (tok : SpanToken) : popBack (str ++ [tok]) = str := dropLast_concat

theorem popBackSpan_concat (str : SpanString) (s : Span) : popBackSpan (str ++ [.span s]) s = some str := by
  simp [popBackSpan]

theorem token_eq (h : s.left < s.right) : token s = some (.span s) := if_neg (Nat.not_le.mpr h)

end

/-- A loop whose steps each write something and leave the string as it was. -/
theorem foldlM_writes {step : SpanString × List SpanString → Span → Option (SpanString × List SpanString)}
    {f : Span → List SpanString} {str : SpanString} {ps : List Span}
    (h : ∀ s ∈ ps, ∀ out, step (str, out) s = some (str, out ++ f s)) (out : List SpanString) :
    ps.foldlM step (str, out) = some (str, out ++ ps.flatMap f) := by
  induction ps generalizing out with
  | nil => simp
  | cons s ps ih =>
    have ih := ih fun t ht => h t (mem_cons_of_mem s ht)
    rw [foldlM_cons, h s mem_cons_self, Option.bind_eq_bind, Option.bind_some, ih, flatMap_cons,
      append_assoc]

variable {lm : List (LmToken T)}

/-- The string is given back as it was, and all choices are written behind it. -/
theorem spanStringsFromPotentials_eq : ∀ {pots : List (List Span)} {idx : Nat}
    {str : SpanString} {out : List SpanString}, (∀ p ∈ pots, ∀ s ∈ p, s.left < s.right) → runs lm ≤ pots.length →
      (startsWithToken lm = true → ∀ t, str.getLast? ≠ some (.span t)) →
      spanStringsFromPotentials lm pots idx str out = some (str, out ++ (choices lm pots idx).map (str ++ ·)) := by
  induction lm with
  | nil =>
    simp [spanStringsFromPotentials, choices]
  | cons tok lm ih =>
    intro pots idx str out hpots hruns hstr
    cases tok with
    | index i =>
      have hlast : startsWithToken lm = true → ∀ t, (str ++ [SpanToken.index i]).getLast? ≠ some (.span t) := by
        intro _ t
        rw [getLast?_concat]
        exact fun h => SpanToken.noConfusion (Option.some.inj h)
      have ih := @ih pots idx (str ++ [SpanToken.index i]) out hpots hruns hlast
      simp only [spanStringsFromPotentials, pushBack_index, Option.bind_eq_bind, Option.bind_some, ih, popBack_concat,
        choices, map_map]
      simp
    | token t =>
      simp only [spanStringsFromPotentials, choices]
      rw [runs] at hruns
      split_ifs with hnext
      · rw [if_pos hnext] at hruns
        exact ih hpots hruns fun _ => hstr rfl
      · rw [if_neg hnext] at hruns
        cases pots with
        | nil => cases hruns
        | cons p pots =>
          have hruns' : runs lm ≤ pots.length := Nat.le_of_succ_le_succ hruns
          have hpots' : ∀ q ∈ pots, ∀ s ∈ q, s.left < s.right := fun q hq => hpots q (mem_cons_of_mem p hq)
          dsimp only
          rw [foldlM_writes (f := fun s => ((choices lm pots s.right).map (.span s :: ·)).map (str ++ ·)),
            map_flatMap]
          intro s hs out
          have hlt := hpots p mem_cons_self s ((dropWhile_sublist _).subset hs)
          simp only [token_eq hlt, Option.bind_eq_bind, Option.bind_some, pushBack_span (hstr rfl),
            ih hpots' hruns' fun h => absurd h hnext, popBackSpan_concat, map_map]
          simp

theorem runs_pos (h : startsWithToken lm = true) : 0 < runs lm := by
  induction lm with
  | nil => cases h
  | cons tok lm ih =>
    cases tok with
    | index i => cases h
    | token t =>
      rw [runs]
      split_ifs with hnext
      · exact ih hnext
      · exact Nat.succ_pos _

/-- Where there are no words the special case gives what the recursion would. -/
theorem variableString_eq (h : runs lm = 0) (str : SpanString) (pots : List (List Span))
    (idx : Nat) : ∃ c, variableString lm str = some (str ++ c) ∧ choices lm pots idx = [c] := by
  induction lm generalizing str with
  | nil => exact ⟨[], by rw [variableString, append_nil], rfl⟩
  | cons tok lm ih =>
    cases tok with
    | index i =>
      obtain ⟨c, hstr, hchoices⟩ := ih h (str ++ [.index i])
      refine ⟨.index i :: c, ?_, ?_⟩
      · rw [variableString, pushBack_index, Option.bind_some, hstr, append_assoc]
        rfl
      · rw [choices, hchoices]
        rfl
    | token t => exact absurd (@runs_pos T (.token t :: lm) rfl) (by omega)

/-! ## Substrings of the target -/

theorem mem_substringEnds {n : Nat} {p : Nat × Nat} : p ∈ substringEnds n ↔ p.1 < p.2 ∧ p.2 ≤ n := by
  obtain ⟨l, r⟩ := p
  simp only [substringEnds, mem_flatMap, mem_range, mem_map, mem_range'_1, Prod.mk.injEq]
  constructor
  · omega
  · rintro ⟨hlt, hle⟩
    exact ⟨l, by omega, r, by omega, rfl, rfl⟩

theorem substringEnds_nodup (n : Nat) : (substringEnds n).Nodup := by
  refine nodup_flatMap.mpr ⟨?_, ?_⟩
  · intro left _
    refine Nodup.map (fun r r' h => (Prod.mk.inj h).2) nodup_range'
  · refine nodup_range.imp fun {l l'} hne p hp hp' => hne ?_
    obtain ⟨r, -, rfl⟩ := mem_map.mp hp
    obtain ⟨r', -, heq⟩ := mem_map.mp hp'
    exact (Prod.mk.inj heq).1.symm

theorem spanT_eq_some {l r : Nat} {s : Span} : spanT l r = some s ↔ s.left = l ∧ s.right = r := by
  unfold spanT
  constructor
  · intro h
    split_ifs at h with hle
    cases h
    exact ⟨rfl, rfl⟩
  · rintro ⟨rfl, rfl⟩
    exact dif_pos ⟨s.le, s.bound⟩

/-- The entry of a substring. -/
def Entry (text : List T) (p : Nat × Nat) (e : List T × Span) : Prop :=
  e.1 = slice text p.1 p.2 ∧ e.2.left = p.1 ∧ e.2.right = p.2

variable {text : List T}

/-- The empty substring, and each other one once for each place where it is. -/
theorem suffixContainer_cases {c : List (List T × Span)} (h : suffixContainer text = some c) :
    ∃ s rest, c = ([], s) :: rest ∧ Forall₂ (Entry text) (substringEnds text.length) rest := by
  obtain ⟨rest, hrest, h⟩ := Option.bind_eq_some_iff.mp h
  refine ⟨_, rest, (Option.some.inj h).symm, (mapM_eq_some_iff.mp hrest).imp fun p e he => ?_⟩
  obtain ⟨t, ht, rfl⟩ := Option.map_eq_some_iff.mp he
  exact ⟨rfl, spanT_eq_some.mp ht⟩

theorem exists_suffixContainer (h : text.length ≤ ushrtMax) : ∃ c, suffixContainer text = some c := by
  have hall : ∀ p ∈ substringEnds text.length,
      ∃ e, (spanT p.1 p.2).map (fun s => (slice text p.1 p.2, s)) = some e ∧ Entry text p e := by
    intro p hp
    obtain ⟨hlt, hle⟩ := mem_substringEnds.mp hp
    have hspan : spanT p.1 p.2 = some ⟨p.1, p.2, hlt.le, hle.trans h⟩ := spanT_eq_some.mpr ⟨rfl, rfl⟩
    rw [hspan]
    exact ⟨_, rfl, rfl, rfl, rfl⟩
  obtain ⟨rest, hrest, -⟩ := exists_mapM hall
  exact ⟨([], ⟨0, 0, le_rfl, Nat.zero_le _⟩) :: rest, Option.bind_eq_some_iff.mpr ⟨rest, hrest, rfl⟩⟩

section

variable [DecidableEq T] {text words : List T} {c : List (List T × Span)} {s : Span}

theorem mem_matchSpans (hc : suffixContainer text = some c) (hne : words ≠ []) :
    s ∈ matchSpans c words ↔ s.left < s.right ∧ s.right ≤ text.length ∧ slice text s.left s.right = words := by
  obtain ⟨s0, rest, rfl, hrest⟩ := suffixContainer_cases hc
  have hhead : (([] : List T) == words) = false := beq_eq_false_iff_ne.mpr (Ne.symm hne)
  simp only [matchSpans, filter_cons, hhead, Bool.false_eq_true, if_false, mem_map, mem_filter, beq_iff_eq]
  constructor
  · rintro ⟨⟨w, t⟩, ⟨hmem, rfl⟩, rfl⟩
    obtain ⟨p, hp, hslice, hl, hr⟩ := exists_of_mem_right hrest hmem
    obtain ⟨hlt, hle⟩ := mem_substringEnds.mp hp
    rw [hl, hr]
    exact ⟨hlt, hle, hslice.symm⟩
  · rintro ⟨hlt, hle, hslice⟩
    have hp : (s.left, s.right) ∈ substringEnds text.length := mem_substringEnds.mpr ⟨hlt, hle⟩
    obtain ⟨⟨w, t⟩, hmem, hw, hl, hr⟩ := exists_of_mem_right hrest.flip hp
    obtain rfl : t = s := Span.ext hl hr
    exact ⟨(w, t), ⟨hmem, hw.trans hslice⟩, rfl⟩

theorem matchSpans_nodup (hc : suffixContainer text = some c) (hne : words ≠ []) : (matchSpans c words).Nodup := by
  obtain ⟨s0, rest, rfl, hrest⟩ := suffixContainer_cases hc
  have hhead : (([] : List T) == words) = false := beq_eq_false_iff_ne.mpr (Ne.symm hne)
  have hends : ∀ {ps : List (Nat × Nat)} {es : List (List T × Span)}, Forall₂ (Entry text) ps es →
      es.map (fun e => (e.2.left, e.2.right)) = ps := by
    intro ps es h
    induction h with
    | nil => rfl
    | cons he _ ih => rw [map_cons, he.2.1, he.2.2, ih]
  have hnodup : (rest.map Prod.snd).Nodup := by
    refine Nodup.of_map (fun t : Span => (t.left, t.right)) ?_
    rw [map_map]
    exact (hends hrest).symm ▸ substringEnds_nodup text.length
  rw [matchSpans, filter_cons, hhead]
  exact hnodup.sublist (filter_sublist.map Prod.snd)

end

/-! ## What the choices stand for -/

variable {cur : List T}

theorem wordRuns_end (hcur : cur ≠ []) (h : ¬ startsWithToken lm = true) : wordRuns cur lm = cur :: wordRuns [] lm := by
  cases lm with
  | nil => simp [wordRuns, hcur]
  | cons tok lm =>
    cases tok with
    | index i => simp [wordRuns, hcur]
    | token t => exact absurd rfl h

theorem wordRuns_length (h : startsWithToken lm = true ∨ cur = []) : (wordRuns cur lm).length = runs lm := by
  induction lm generalizing cur with
  | nil =>
    obtain rfl := h.resolve_left Bool.false_ne_true
    rfl
  | cons tok lm ih =>
    cases tok with
    | index i =>
      obtain rfl := h.resolve_left Bool.false_ne_true
      exact ih (.inr rfl)
    | token t =>
      rw [wordRuns, runs]
      split_ifs with hnext
      · exact ih (.inl hnext)
      · have hne : cur ++ [t] ≠ [] := append_ne_nil_of_right_ne_nil cur (cons_ne_nil t [])
        rw [wordRuns_end hne hnext, length_cons, ih (.inr rfl)]

theorem ne_nil_of_mem_wordRuns {words : List T} (h : words ∈ wordRuns cur lm) : words ≠ [] := by
  induction lm generalizing cur with
  | nil =>
    rw [wordRuns] at h
    split_ifs at h with hcur
    · cases h
    · rw [mem_singleton.mp h]
      exact fun hnil => hcur (List.isEmpty_iff.mpr hnil)
  | cons tok lm ih =>
    cases tok with
    | index i =>
      rcases mem_append.mp h with h | h
      · split_ifs at h with hcur
        · cases h
        · rw [mem_singleton.mp h]
          exact fun hnil => hcur (List.isEmpty_iff.mpr hnil)
      · exact ih h
    | token t => exact ih h

theorem slice_append {a m b : Nat} (h : a ≤ m) (h' : m ≤ b) : slice text a m ++ slice text m b = slice text a b := by
  have hdrop : text.drop m = (text.drop a).drop (m - a) := by rw [drop_drop, Nat.add_sub_cancel' h]
  have hlen : b - a = (m - a) + (b - m) := by omega
  rw [slice, slice, slice, hdrop, hlen, take_add]

section

variable {text : List T} {children : List Span} {lm : List (LmToken T)} {a b : Nat}

variable {words : List T}

/-- A run is read off in one. -/
theorem spells_words : Spells text children (words.map LmToken.token ++ lm) a b ↔
      slice text a (a + words.length) = words ∧ Spells text children lm (a + words.length) b := by
  induction words generalizing a with
  | nil => simp [slice]
  | cons w words ih =>
    have hslice : slice text a (a + (w :: words).length) = w :: words ↔
        text[a]? = some w ∧ slice text (a + 1) (a + 1 + words.length) = words := by
      have hlen : a + (w :: words).length - a = words.length + 1 := by rw [length_cons]; omega
      have hlen' : a + 1 + words.length - (a + 1) = words.length := by omega
      rw [slice, slice, hlen, hlen']
      rcases lt_or_ge a text.length with hlt | hge
      · rw [drop_eq_getElem_cons hlt, take_succ_cons, getElem?_eq_getElem hlt, List.cons.injEq,
          Option.some.injEq]
      · rw [drop_eq_nil_of_le hge, getElem?_eq_none hge]
        simp
    have hadd : a + (w :: words).length = a + 1 + words.length := by rw [length_cons]; omega
    rw [map_cons, cons_append, Spells, ih, hslice, hadd, and_assoc]

/-- In a list sorted by left ends, what is not skipped. -/
theorem mem_dropWhile_left {p : List Span} (hp : p.Pairwise fun s t => s.left ≤ t.left) {idx : Nat} {s : Span} :
    s ∈ p.dropWhile (fun s => decide (s.left < idx)) ↔ s ∈ p ∧ idx ≤ s.left := by
  induction p with
  | nil => simp
  | cons t p ih =>
    obtain ⟨hhead, htail⟩ := pairwise_cons.mp hp
    rw [dropWhile_cons]
    split_ifs with hskip
    · rw [ih htail, mem_cons]
      constructor
      · exact fun h => ⟨.inr h.1, h.2⟩
      · rintro ⟨rfl | h, hle⟩
        · exact absurd (decide_eq_true_iff.mp hskip) (Nat.not_lt.mpr hle)
        · exact ⟨h, hle⟩
    · have hle : idx ≤ t.left := Nat.not_lt.mp fun h => hskip (decide_eq_true h)
      constructor
      · intro h
        refine ⟨h, ?_⟩
        rcases mem_cons.mp h with rfl | h
        · exact hle
        · exact hle.trans (hhead s h)
      · exact And.left

/-- The places of a run of words. -/
structure Places (text : List T) (place : List T → List Span) : Prop where
  bound : text.length ≤ ushrtMax
  mem : ∀ words, words ≠ [] → ∀ s, s ∈ place words ↔
    s.left < s.right ∧ s.right ≤ text.length ∧ slice text s.left s.right = words
  sorted : ∀ words, (place words).Pairwise fun s t => s.left ≤ t.left
  nodup : ∀ words, words ≠ [] → (place words).Nodup

variable {place : List T → List Span}

theorem Places.mem_iff (h : Places text place) (hne : words ≠ []) {s : Span} :
    s ∈ place words ↔ s.right = s.left + words.length ∧ slice text s.left (s.left + words.length) = words := by
  have hpos : 0 < words.length := length_pos_iff.mpr hne
  rw [h.mem words hne s]
  constructor
  · rintro ⟨hlt, hle, hslice⟩
    have hlen : words.length = s.right - s.left := by
      rw [← hslice, slice, length_take, length_drop]
      omega
    have hright : s.right = s.left + words.length := by omega
    exact ⟨hright, hright ▸ hslice⟩
  · rintro ⟨hright, hslice⟩
    have hlen := congrArg List.length hslice
    rw [slice, length_take, length_drop] at hlen
    rw [hright]
    exact ⟨by omega, by omega, hslice⟩

theorem Places.exists_span (h : Places text place) (hne : words ≠ [])
    (hslice : slice text a (a + words.length) = words) : ∃ s : Span, s.left = a ∧ s.right = s.left + words.length := by
  have hpos : 0 < words.length := length_pos_iff.mpr hne
  have hlen := congrArg List.length hslice
  rw [slice, length_take, length_drop] at hlen
  have hbound := h.bound
  exact ⟨⟨a, a + words.length, Nat.le_add_right _ _, by omega⟩, rfl, rfl⟩

/-- **A choice that lies one behind the other is a reading of the target.** `cur` is the part of a run that is behind. -/
theorem choices_spells (hplace : Places text place) {cur : List T} {idx : Nat}
    (hcur : startsWithToken lm = true ∨ cur = []) (hidx : idx ≤ a) :
    (∃ c ∈ choices lm ((wordRuns cur lm).map place) idx, Tiles children c a b) ↔
      Spells text children (cur.map LmToken.token ++ lm) a b := by
  induction lm generalizing cur idx a with
  | nil =>
    obtain rfl := hcur.resolve_left Bool.false_ne_true
    simp [choices, Tiles, Spells]
  | cons tok lm ih =>
    cases tok with
    | index i =>
      obtain rfl := hcur.resolve_left Bool.false_ne_true
      constructor
      · rintro ⟨_, hc, htiles⟩
        obtain ⟨c, hc', rfl⟩ := mem_map.mp hc
        obtain ⟨s, hs, ⟨hlen, htiles⟩ | ⟨hlen, hleft, htiles⟩⟩ := htiles
        · exact ⟨s, hs, .inl ⟨hlen, (ih (.inr rfl) hidx).mp ⟨c, hc', htiles⟩⟩⟩
        · have hright : idx ≤ s.right := hidx.trans (hleft ▸ s.le)
          exact ⟨s, hs, .inr ⟨hlen, hleft, (ih (.inr rfl) hright).mp ⟨c, hc', htiles⟩⟩⟩
      · rintro ⟨s, hs, ⟨hlen, hspells⟩ | ⟨hlen, hleft, hspells⟩⟩
        · obtain ⟨c, hc, htiles⟩ := (@ih a [] idx (.inr rfl) hidx).mpr hspells
          exact ⟨_, mem_map_of_mem hc, s, hs, .inl ⟨hlen, htiles⟩⟩
        · have hright : idx ≤ s.right := hidx.trans (hleft ▸ s.le)
          obtain ⟨c, hc, htiles⟩ := (@ih s.right [] idx (.inr rfl) hright).mpr hspells
          exact ⟨_, mem_map_of_mem hc, s, hs, .inr ⟨hlen, hleft, htiles⟩⟩
    | token t =>
      have hmap : cur.map LmToken.token ++ LmToken.token t :: lm = (cur ++ [t]).map LmToken.token ++ lm := by simp
      rw [hmap, wordRuns]
      simp only [choices]
      split_ifs with hnext
      · exact ih (.inl hnext) hidx
      · have hne : cur ++ [t] ≠ [] := append_ne_nil_of_right_ne_nil cur (cons_ne_nil t [])
        rw [wordRuns_end hne hnext, spells_words]
        generalize cur ++ [t] = words at hne
        constructor
        · rintro ⟨_, hc, htiles⟩
          obtain ⟨s, hs, hc⟩ := mem_flatMap.mp hc
          obtain ⟨c, hc', rfl⟩ := mem_map.mp hc
          obtain ⟨hs, -⟩ := (mem_dropWhile_left (hplace.sorted words)).mp hs
          obtain ⟨hright, hslice⟩ := (hplace.mem_iff hne).mp hs
          obtain ⟨rfl, htiles⟩ := htiles
          exact ⟨hslice, hright ▸ (ih (.inr rfl) le_rfl).mp ⟨c, hc', htiles⟩⟩
        · rintro ⟨hslice, hspells⟩
          obtain ⟨s, rfl, hright⟩ := hplace.exists_span hne hslice
          have hs := (hplace.mem_iff hne).mpr ⟨hright, hslice⟩
          rw [← hright] at hspells
          obtain ⟨c, hc, htiles⟩ := (@ih s.right [] s.right (.inr rfl) le_rfl).mpr hspells
          have hkept := (mem_dropWhile_left (hplace.sorted words)).mpr ⟨hs, hidx⟩
          exact ⟨_, mem_flatMap.mpr ⟨s, hkept, mem_map_of_mem hc⟩, rfl, htiles⟩

end

/-! ## No choice comes twice, and each has the variables and runs of the string -/

section

variable {lm : List (LmToken T)} {pots : List (List Span)} {idx : Nat} {c : SpanString}

theorem choices_nodup (hpots : ∀ p ∈ pots, p.Nodup) : (choices lm pots idx).Nodup := by
  induction lm generalizing pots idx with
  | nil => exact nodup_singleton []
  | cons tok lm ih =>
    have hcons : ∀ tok : SpanToken, Function.Injective fun c : SpanString => tok :: c := fun tok => cons_injective
    cases tok with
    | index i => exact (ih hpots).map (hcons (.index i))
    | token t =>
      simp only [choices]
      split_ifs with hnext
      · exact ih hpots
      · cases pots with
        | nil => exact nodup_nil
        | cons p pots =>
          have hp := hpots p mem_cons_self
          refine nodup_flatMap.mpr ⟨fun s _ => ?_, ?_⟩
          · exact (ih fun q hq => hpots q (mem_cons_of_mem p hq)).map (hcons (.span s))
          · refine (hp.sublist (dropWhile_sublist _)).imp fun {s s'} hne c hc hc' => hne ?_
            obtain ⟨d, -, rfl⟩ := mem_map.mp hc
            obtain ⟨d', -, heq⟩ := mem_map.mp hc'
            exact SpanToken.span.inj (List.cons.inj heq).1.symm

theorem index_mem_choices (h : c ∈ choices lm pots idx) (i : Nat) : .index i ∈ c ↔ i ∈ lmIndices lm := by
  induction lm generalizing pots idx c with
  | nil =>
    rw [mem_singleton.mp h]
    simp [lmIndices]
  | cons tok lm ih =>
    cases tok with
    | index j =>
      obtain ⟨d, hd, rfl⟩ := mem_map.mp h
      rw [mem_cons, ih hd, lmIndices, mem_cons, SpanToken.index.injEq]
    | token t =>
      simp only [choices] at h
      split_ifs at h with hnext
      · exact ih h
      · cases pots with
        | nil => cases h
        | cons p pots =>
          obtain ⟨s, -, hc⟩ := mem_flatMap.mp h
          obtain ⟨d, hd, rfl⟩ := mem_map.mp hc
          rw [mem_cons, ih hd]
          exact or_iff_right SpanToken.noConfusion

theorem span_mem_choices (h : c ∈ choices lm pots idx) : (∃ s, .span s ∈ c) ↔ ∃ t, .token t ∈ lm := by
  induction lm generalizing pots idx c with
  | nil =>
    rw [mem_singleton.mp h]
    simp
  | cons tok lm ih =>
    cases tok with
    | index j =>
      obtain ⟨d, hd, rfl⟩ := mem_map.mp h
      simpa using ih hd
    | token t =>
      refine iff_of_true ?_ ⟨t, mem_cons_self⟩
      simp only [choices] at h
      split_ifs at h with hnext
      · have htoken : ∃ u, .token u ∈ lm := by
          cases lm with
          | nil => cases hnext
          | cons tok lm =>
            cases tok with
            | index j => cases hnext
            | token u => exact ⟨u, mem_cons_self⟩
        exact (ih h).mpr htoken
      · cases pots with
        | nil => cases h
        | cons p pots =>
          obtain ⟨s, -, hc⟩ := mem_flatMap.mp h
          obtain ⟨d, -, rfl⟩ := mem_map.mp hc
          exact ⟨s, mem_cons_self⟩

/-- A run that is nowhere leaves nothing to choose. -/
theorem choices_eq_nil (hlen : pots.length = runs lm) (h : [] ∈ pots) : choices lm pots idx = [] := by
  induction lm generalizing pots idx with
  | nil =>
    rw [runs, length_eq_zero_iff] at hlen
    rw [hlen] at h
    cases h
  | cons tok lm ih =>
    cases tok with
    | index j => rw [choices, ih hlen h, map_nil]
    | token t =>
      rw [runs] at hlen
      simp only [choices]
      split_ifs at hlen ⊢ with hnext
      · exact ih hlen h
      · cases pots with
        | nil => cases hlen
        | cons p pots =>
          rcases mem_cons.mp h with rfl | h
          · rfl
          · simp only [ih (Nat.succ.inj hlen) h, map_nil, flatMap_eq_nil_iff, implies_true]

end

/-! ## The span strings of the string -/

section

variable [DecidableEq T] {text : List T} {suffixC : List (List T × Span)} {lm : List (LmToken T)}

/-- Where a run of words is, sorted. -/
def sortedSpans (suffixC : List (List T × Span)) (words : List T) : List Span :=
  (matchSpans suffixC words).insertionSort fun a b => spanBefore b a = false

theorem places_sortedSpans (htext : text.length ≤ ushrtMax) (hc : suffixContainer text = some suffixC) :
    Places text (sortedSpans suffixC) := by
  have hbefore : ∀ {a b : Span}, spanBefore b a = false ↔
      a.left < b.left ∨ a.left = b.left ∧ a.right ≤ b.right := by
    simp only [spanBefore, Bool.or_eq_false_iff, decide_eq_false_iff_not, Bool.and_eq_false_iff, beq_eq_false_iff_ne]
    omega
  have : Std.Total fun a b : Span => spanBefore b a = false := ⟨fun a b => by rw [hbefore, hbefore]; omega⟩
  have : IsTrans Span fun a b => spanBefore b a = false :=
    ⟨fun a b c hab hbc => by rw [hbefore] at hab hbc ⊢; omega⟩
  refine ⟨htext, ?_, ?_, ?_⟩
  · intro words hne s
    rw [sortedSpans, mem_insertionSort, mem_matchSpans hc hne]
  · intro words
    refine (pairwise_insertionSort _ _).imp fun {a b} h => ?_
    rw [hbefore] at h
    omega
  · intro words hne
    exact (perm_insertionSort _ _).nodup_iff.mpr (matchSpans_nodup hc hne)

variable (suffixC lm) in
theorem potentials_cases :
    potentials suffixC lm = some ((wordRuns [] lm).map (sortedSpans suffixC)) ∨
      potentials suffixC lm = none ∧ [] ∈ (wordRuns [] lm).map (sortedSpans suffixC) := by
  by_cases h : ∀ words ∈ wordRuns [] lm, matchSpans suffixC words ≠ []
  · refine .inl (mapM_some fun words hwords => if_neg ?_)
    exact fun hempty => h words hwords (List.isEmpty_iff.mp hempty)
  · right
    push Not at h
    obtain ⟨words, hwords, hnone⟩ := h
    constructor
    · cases hpots : potentials suffixC lm with
      | none => rfl
      | some pots =>
        obtain ⟨p, -, hp⟩ := exists_of_mem_right (mapM_eq_some_iff.mp hpots).flip hwords
        rw [hnone] at hp
        cases hp
    · refine mem_map.mpr ⟨words, hwords, ?_⟩
      rw [sortedSpans, hnone]
      rfl

theorem spanStringsFromLmString_eq (htext : text.length ≤ ushrtMax) (hc : suffixContainer text = some suffixC) :
    spanStringsFromLmString suffixC lm = some (choices lm ((wordRuns [] lm).map (sortedSpans suffixC)) 0) := by
  have hplaces := places_sortedSpans htext hc
  have hlen : ((wordRuns [] lm).map (sortedSpans suffixC)).length = runs lm := by
    rw [length_map, wordRuns_length (.inr rfl)]
  rcases potentials_cases suffixC lm with hpots | ⟨hpots, hnil⟩
  · rw [spanStringsFromLmString, hpots]
    generalize hpots' : (wordRuns [] lm).map (sortedSpans suffixC) = pots at hlen
    dsimp only
    split_ifs with hempty
    · obtain rfl := List.isEmpty_iff.mp hempty
      obtain ⟨c, hstr, hchoices⟩ := variableString_eq hlen.symm [] [] 0
      rw [hstr, hchoices]
      rfl
    · have hspans : ∀ p ∈ pots, ∀ s ∈ p, s.left < s.right := by
        intro p hp s hs
        rw [← hpots'] at hp
        obtain ⟨words, hwords, rfl⟩ := mem_map.mp hp
        exact ((hplaces.mem words (ne_nil_of_mem_wordRuns hwords) s).mp hs).1
      rw [spanStringsFromPotentials_eq hspans hlen.ge fun _ t h => by cases h]
      simp
  · rw [spanStringsFromLmString, hpots, choices_eq_nil hlen hnil]

end

/-! ## The whole -/

section

variable {text : List T} {children : List Span} {lm : List (LmToken T)} {a b : Nat}

theorem Spells.le (h : Spells text children lm a b) : a ≤ b := by
  induction lm generalizing a with
  | nil => exact h.le
  | cons tok lm ih =>
    cases tok with
    | token t => exact (Nat.le_succ a).trans (ih h.2)
    | index i =>
      obtain ⟨s, -, ⟨-, h⟩ | ⟨-, rfl, h⟩⟩ := h
      · exact ih h
      · exact s.le.trans (ih h)

/-- What is read off is what the strings of the children are joined to. -/
theorem Spells.slice_eq {s0 s1 : Span} (h : Spells text [s0, s1] lm a b) :
    slice text a b = joinSentence lm (slice text s0.left s0.right) (slice text s1.left s1.right) := by
  have hempty : ∀ {s : Span}, s.length = 0 → slice text s.left s.right = [] := by
    intro s hs
    rw [slice, show s.right - s.left = 0 from hs, take_zero]
  induction lm generalizing a with
  | nil =>
    obtain rfl := h
    simp [slice, joinSentence]
  | cons tok lm ih =>
    cases tok with
    | token t =>
      obtain ⟨ht, hrest⟩ := h
      have hhead : slice text a (a + 1) = [t] := by
        have hlt := (List.getElem?_eq_some_iff.mp ht).1
        rw [slice, drop_eq_getElem_cons hlt, Nat.add_sub_cancel_left, take_succ_cons, take_zero,
          (List.getElem?_eq_some_iff.mp ht).2]
      rw [joinSentence, ← ih hrest, ← slice_append (Nat.le_succ a) hrest.le, hhead]
      rfl
    | index i =>
      obtain ⟨s, hs, hcase⟩ := h
      have hchild : (if i = 0 then slice text s0.left s0.right else slice text s1.left s1.right) =
          slice text s.left s.right := by
        rcases i with _ | _ | i
        · obtain rfl := Option.some.inj hs
          rfl
        · obtain rfl := Option.some.inj hs
          rfl
        · cases hs
      rw [joinSentence, hchild]
      rcases hcase with ⟨hlen, hrest⟩ | ⟨-, rfl, hrest⟩
      · rw [hempty hlen, ih hrest, nil_append]
      · rw [← ih hrest, slice_append s.le hrest.le]

theorem joinSentence_twice (lm : List (LmToken T)) (str : List T) : joinSentence lm str str = joinSentence₁ lm str := by
  induction lm with
  | nil => rfl
  | cons tok lm ih =>
    cases tok with
    | token t => rw [joinSentence, joinSentence₁, ih]
    | index i => rw [joinSentence, joinSentence₁, ih, ite_self]

/-- More children do no harm. -/
theorem Spells.append (h : Spells text children lm a b) (more : List Span) : Spells text (children ++ more) lm a b := by
  induction lm generalizing a with
  | nil => exact h
  | cons tok lm ih =>
    cases tok with
    | token t => exact ⟨h.1, ih h.2⟩
    | index i =>
      obtain ⟨s, hs, hcase⟩ := h
      refine ⟨s, ?_, hcase.imp (fun h => ⟨h.1, ih h.2⟩) fun h => ⟨h.1, h.2.1, ih h.2.2⟩⟩
      rw [getElem?_append_left (List.getElem?_eq_some_iff.mp hs).1, hs]

theorem Spells.slice_eq₁ {s : Span} (h : Spells text [s] lm a b) :
    slice text a b = joinSentence₁ lm (slice text s.left s.right) := by
  rw [← joinSentence_twice]
  exact (h.append [s]).slice_eq

/-- The string has a part: a word, or a child that is not empty. -/
def SomePart (children : List Span) (lm : List (LmToken T)) : Prop :=
  (∃ t, .token t ∈ lm) ∨ ∃ i ∈ lmIndices lm, ∃ s, children[i]? = some s ∧ s.length ≠ 0

/-- **The span strings of a language-model string, none of them twice, join to a span exactly when the string is read
off the target along it, each child at its own place**; and then these are the words that `join_sentence` gives. -/
theorem spanStrings_exact [DecidableEq T] (text : List T) (htext : text.length ≤ ushrtMax) (lm : List (LmToken T)) :
    ∃ suffixC out, suffixContainer text = some suffixC ∧ spanStringsFromLmString suffixC lm = some out ∧ out.Nodup ∧
      (∀ children : List Span, (∀ i ∈ lmIndices lm, i < children.length) → SomePart children lm → ∀ a b,
        (∃ sstr ∈ out, joinSpans sstr children = some ((a, b), true)) ↔ Spells text children lm a b) ∧
      ∀ (s0 s1 : Span) (a b : Nat),
        (Spells text [s0] lm a b → slice text a b = joinSentence₁ lm (slice text s0.left s0.right)) ∧
        (Spells text [s0, s1] lm a b →
          slice text a b = joinSentence lm (slice text s0.left s0.right) (slice text s1.left s1.right)) := by
  obtain ⟨suffixC, hc⟩ := exists_suffixContainer htext
  have hplaces := places_sortedSpans htext hc
  refine ⟨suffixC, _, hc, spanStringsFromLmString_eq htext hc, ?_, ?_,
    fun s0 s1 a b => ⟨Spells.slice_eq₁, Spells.slice_eq⟩⟩
  · refine choices_nodup fun p hp => ?_
    obtain ⟨words, hwords, rfl⟩ := mem_map.mp hp
    exact hplaces.nodup words (ne_nil_of_mem_wordRuns hwords)
  · intro children hfed hpart a b
    have hjoin : ∀ c ∈ choices lm ((wordRuns [] lm).map (sortedSpans suffixC)) 0,
        joinSpans c children = some ((a, b), true) ↔ Tiles children c a b := by
      intro c hmem
      have hfed' : Fed children c := fun i hi => hfed i ((index_mem_choices hmem i).mp hi)
      have hpart' : HasPart children c := by
        rcases hpart with ht | ⟨i, hi, s, hs, hlen⟩
        · exact .inl ((span_mem_choices hmem).mpr ht)
        · exact .inr ⟨i, s, (index_mem_choices hmem i).mpr hi, hs, hlen⟩
      rw [joinSpans_eq_some hfed']
      exact ⟨fun h => (h.resolve_right fun h => h.1 hpart').2, fun h => .inl ⟨hpart', h⟩⟩
    have hspells := @choices_spells T text children lm a b _ hplaces [] 0 (.inr rfl) (Nat.zero_le a)
    rw [map_nil, nil_append] at hspells
    rw [← hspells]
    exact exists_congr fun c => and_congr_right (hjoin c)

end

/-- `"a" x0` on `a b a b`, the child at the last word. -/
theorem spanStrings_exact_abab : ∃ suffixC out, suffixContainer [1, 2, 1, 2] = some suffixC ∧
    spanStringsFromLmString suffixC [.token 1, .index 0] = some out ∧
    ∃ sstr ∈ out, joinSpans sstr [⟨3, 4, by decide, by decide⟩] = some ((2, 4), true) := by
  obtain ⟨suffixC, out, hc, hout, -, hexact, -⟩ := spanStrings_exact [1, 2, 1, 2] (by decide) [.token 1, .index 0]
  refine ⟨suffixC, out, hc, hout, (hexact _ (by decide) (.inl ⟨1, mem_cons_self⟩) 2 4).mpr ?_⟩
  exact ⟨rfl, _, rfl, .inr ⟨by decide, rfl, rfl⟩⟩

/-- `x0` on `a b a b` with the child at the first two words: the last two are the same words, and are not joined to. -/
theorem not_spanStrings_words :
    ¬ ((∃ sstr ∈ ((suffixContainer [1, 2, 1, 2]).bind (spanStringsFromLmString · [.index 0])).getD [],
        joinSpans sstr [⟨0, 2, by decide, by decide⟩] = some ((2, 4), true)) ↔
      slice [1, 2, 1, 2] 2 4 = joinSentence₁ [.index 0] (slice [1, 2, 1, 2] 0 2)) := by
  decide

end Sbmt.Edge
