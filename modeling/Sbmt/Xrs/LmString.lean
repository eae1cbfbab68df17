import Sbmt.Xrs.SyntaxRule
import Sbmt.Lib.Fallible
/-!
# The text of a language-model string (`sbmt_decoder/include/sbmt/grammar/lm_string.hpp`)

| here | there |
| --- | --- |
| `LabelFactory` | `fat_token_factory`, `dictionary`, with `label` (`sbmt/token/fat_token.hpp`, `indexed_token.hpp`) |
| `LmToken`, `printToken`, `print` | `lm_token`, `print` (`grammar/impl/lm_string.ipp:64-73`, `:156-166`) |
| `indexString`, `lexicalString`, `nonterminalString` | the regular expressions of `src/lm_string.cpp` |
| `lmToker`, `tokens`, `lmString` | `lm_toker`, the tokenizer and the constructor (`lm_string.ipp:15-60`) |
| `readBack` | the value of a feature as the rule grammars cut it out (`"{{{"` to the first `"}}}"`), given to `lm_string_constructor` |

`none` is where `lexical_cast` throws: an index of 2^32 or more.
-/

namespace Sbmt.Xrs

open Sbmt.Lib Sbmt.Lib.Phrase Sbmt.Forest List

structure LabelFactory (T : Type) extends TokenFactory T where
  label : T → Text
  label_nativeWord : ∀ l, label (nativeWord l) = l

/-- `is_lexical` -/
def TokenFactory.isLexical {T : Type} (tf : TokenFactory T) (t : T) : Bool :=
  decide (tf.type t = .foreign ∨ tf.type t = .native)

inductive LmToken (T : Type) where
  | token (t : T)
  | index (idx : Nat)
deriving DecidableEq

namespace LmString

variable {T : Type} (tf : LabelFactory T)

def printToken : LmToken T → Text
  | .token t => if tf.isLexical t then '"' :: (tf.label t ++ ['"']) else '(' :: (tf.label t ++ [')'])
  | .index idx => 'x' :: showNat idx

def print (lms : List (LmToken T)) : Text := opens ++ (intercalate [' '] (lms.map (printToken tf)) ++ closes)

/-! ## The tokenizer -/

/-- `[x]?([0-9]+)`. -/
def indexString (str : Text) : Option Text :=
  let digits := match str with
    | 'x' :: t => t
    | t => t
  if digits ≠ [] ∧ digits.all Char.isDigit then some digits else none

/-- `"([^"]+|")"`. -/
def lexicalString : Text → Option Text
  | '"' :: t =>
    if t.getLast? = some '"' ∧ (t.dropLast = ['"'] ∨ t.dropLast ≠ [] ∧ '"' ∉ t.dropLast) then some t.dropLast else none
  | _ => none

/-- `^\((.*)\)$`. -/
def nonterminalString : Text → Option Text
  | '(' :: t => if t.getLast? = some ')' then some t.dropLast else none
  | _ => none

def lmToker (str : Text) : Option (LmToken T) :=
  match indexString str with
  | some digits => (readBelow (2 ^ 32) digits).map fun r => .index r.1
  | none =>
    match lexicalString str with
    | some w => some (.token (tf.nativeWord w))
    | none =>
      match nonterminalString str with
      | some l => some (.token (if l ≠ "TOP".toList then tf.tag l else tf.toplevelTag))
      | none => some (.token (tf.tag str))

def isDelimiter (c : Char) : Bool := c = ' ' || c = '\t'

/-- `char_delimiters_separator(false, "", " \t")`: what stands between delimiters.  `cur` is read already. -/
def tokens (cur : Text) : Text → List Text
  | [] => if cur = [] then [] else [cur]
  | c :: t => if isDelimiter c then (if cur = [] then [] else [cur]) ++ tokens [] t else tokens (cur ++ [c]) t

def lmString (str : Text) : Option (List (LmToken T)) := (tokens [] str).mapM (lmToker tf)

def readBack (t : Text) : Option (List (LmToken T)) := (compoundStr t).bind fun r => lmString tf r.1

/-! ## Words that come back -/

/-- The words of the rule grammars, and the indices. -/
def lmToken : RhsNode → LmToken T
  | .word w => .token (tf.nativeWord w)
  | .index i => .index i

/-- A quote alone, or characters none of which is a quote or a delimiter, nor three of them the closing braces. -/
def Quotable (w : Text) : Prop :=
  w = ['"'] ∨ w ≠ [] ∧ '"' ∉ w ∧ (∀ c ∈ w, isDelimiter c = false) ∧ ¬ closes <:+: w

section

variable {cur str u w : Text} {tf}

theorem tokens_run (hw : ∀ c ∈ w, isDelimiter c = false) (cur t : Text) : tokens cur (w ++ t) = tokens (cur ++ w) t := by
  induction w generalizing cur with
  | nil => rw [append_nil, nil_append]
  | cons c w ih =>
    have hc : ¬ isDelimiter c = true := by rw [hw c mem_cons_self]; exact Bool.false_ne_true
    rw [cons_append, tokens, if_neg hc, ih fun d hd => hw d (mem_cons_of_mem c hd), append_assoc]
    rfl

/-- Spaces between tokens that have none are taken away again. -/
theorem tokens_intercalate {l : List Text} (hl : ∀ w ∈ l, w ≠ [] ∧ ∀ c ∈ w, isDelimiter c = false) :
    tokens [] (intercalate [' '] l) = l := by
  induction l with
  | nil => rfl
  | cons w l ih =>
    obtain ⟨hne, hw⟩ := hl w mem_cons_self
    have ih := ih fun v hv => hl v (mem_cons_of_mem w hv)
    cases l with
    | nil =>
      have hrun := tokens_run hw [] []
      rw [append_nil] at hrun
      simp [intercalate, hrun, tokens, hne]
    | cons v l =>
      have hsplit : intercalate [' '] (w :: v :: l) = w ++ (' ' :: intercalate [' '] (v :: l)) := by
        simp [intercalate]
      rw [hsplit, tokens_run hw, nil_append, tokens, if_neg hne, ih]
      rfl

/-- A token is a stretch of the text without a delimiter. -/
theorem mem_tokens {p t : Text} (h : p ∈ tokens cur t) (hcur : ∀ c ∈ cur, isDelimiter c = false) :
    (∀ c ∈ p, isDelimiter c = false) ∧ p <:+: cur ++ t := by
  induction t generalizing cur with
  | nil =>
    rw [tokens] at h
    split_ifs at h
    · exact absurd h not_mem_nil
    · rw [mem_singleton.mp h, append_nil]
      exact ⟨hcur, infix_rfl⟩
  | cons c t ih =>
    rw [tokens] at h
    split_ifs at h with hc hnil
    · obtain ⟨hp, hin⟩ := ih h fun d hd => absurd hd not_mem_nil
      exact ⟨hp, hin.trans ⟨cur ++ [c], [], by simp⟩⟩
    · rcases mem_append.mp h with h | h
      · rw [mem_singleton.mp h]
        exact ⟨hcur, [], c :: t, rfl⟩
      · obtain ⟨hp, hin⟩ := ih h fun d hd => absurd hd not_mem_nil
        exact ⟨hp, hin.trans ⟨cur ++ [c], [], by simp⟩⟩
    · have hcur' : ∀ d ∈ cur ++ [c], isDelimiter d = false := by
        intro d hd
        rcases mem_append.mp hd with hd | hd
        · exact hcur d hd
        · rw [mem_singleton.mp hd]
          exact Bool.eq_false_iff.mpr hc
      obtain ⟨hp, hin⟩ := ih h hcur'
      rw [append_assoc] at hin
      exact ⟨hp, hin⟩

/-! ## One token -/

theorem not_digit_quote : Char.isDigit '"' = false := rfl

theorem indexString_quote (t : Text) : indexString ('"' :: t) = none := by
  simp [indexString, not_digit_quote]

theorem lexicalString_eq_some : lexicalString str = some w ↔ str = '"' :: (w ++ ['"']) ∧ (w = ['"'] ∨ w ≠ [] ∧ '"' ∉ w) := by
  constructor
  · intro h
    unfold lexicalString at h
    split at h
    · split_ifs at h with hcond
      obtain ⟨hlast, hbody⟩ := hcond
      cases h
      refine ⟨?_, hbody⟩
      rw [dropLast_append_getLast? _ hlast]
    · exact absurd h (by simp)
  · rintro ⟨rfl, hbody⟩
    simp [lexicalString, hbody]

theorem lmToker_word (hw : w = ['"'] ∨ w ≠ [] ∧ '"' ∉ w) :
    lmToker tf ('"' :: (w ++ ['"'])) = some (.token (tf.nativeWord w)) := by
  rw [lmToker, indexString_quote, lexicalString_eq_some.mpr ⟨rfl, hw⟩]

theorem lmToker_index {n : Nat} (hn : n < 2 ^ 32) : lmToker tf ('x' :: showNat n) = some (.index n) := by
  have hdigits : indexString ('x' :: showNat n) = some (showNat n) := by
    have hall : (showNat n).all Char.isDigit = true := all_eq_true.mpr fun c hc => isDigit_of_mem_showNat hc
    exact if_pos ⟨showNat_ne_nil n, hall⟩
  have hread : readBelow (2 ^ 32) (showNat n) = some (n, []) := by
    have h := readBelow_showNat hn (t := []) (by simp)
    rwa [append_nil] at h
  rw [lmToker, hdigits]
  dsimp only
  rw [hread]
  rfl

theorem nativeWord_inj {w w' : Text} (h : tf.nativeWord w = tf.nativeWord w') : w = w' := by
  rw [← tf.label_nativeWord w, h, tf.label_nativeWord]

theorem tag_ne_nativeWord (l w : Text) : tf.tag l ≠ tf.nativeWord w := by
  intro h
  have htype := congrArg tf.type h
  rw [tf.type_tag, tf.type_nativeWord] at htype
  cases htype

theorem toplevelTag_ne_nativeWord (w : Text) : tf.toplevelTag ≠ tf.nativeWord w := by
  intro h
  have htype := congrArg tf.type h
  rw [tf.type_toplevelTag, tf.type_nativeWord] at htype
  cases htype

/-- Only a quoted text becomes a word. -/
theorem lmToker_eq_word (h : lmToker tf str = some (.token (tf.nativeWord w))) :
    str = '"' :: (w ++ ['"']) ∧ (w = ['"'] ∨ w ≠ [] ∧ '"' ∉ w) := by
  unfold lmToker at h
  split at h
  · obtain ⟨r, _, hr⟩ := Option.map_eq_some_iff.mp h
    cases hr
  · split at h
    · rename_i w' hw'
      have hw : w' = w := nativeWord_inj (LmToken.token.inj (Option.some.inj h))
      exact lexicalString_eq_some.mp (hw ▸ hw')
    · split at h
      · have hl := LmToken.token.inj (Option.some.inj h)
        split_ifs at hl
        · exact absurd hl (tag_ne_nativeWord _ _)
        · exact absurd hl (toplevelTag_ne_nativeWord _)
      · exact absurd (LmToken.token.inj (Option.some.inj h)) (tag_ne_nativeWord _ _)

/-! ## The braces -/

/-- Where the closing braces are not in a text, and it does not end in one, they are found behind it. -/
theorem untilClose_append (hu : ¬ closes <:+: u) (hlast : '}' ∉ u.getLast?) (r : Text) :
    untilClose (u ++ (closes ++ r)) = some (u, r) := by
  induction u with
  | nil => rfl
  | cons c u ih =>
    have hlit : lit closes (c :: (u ++ (closes ++ r))) = none := by
      rcases hlit : lit closes (c :: (u ++ (closes ++ r))) with _ | x
      · rfl
      · have heq := lit_eq_some.mp hlit
        rcases u with _ | ⟨d, _ | ⟨e, u⟩⟩
        · simp [closes] at heq hlast
          exact absurd heq.1 hlast
        · simp [closes] at heq hlast
          exact absurd heq.2.1 hlast
        · obtain ⟨rfl, rfl, rfl, _⟩ := heq
          exact absurd ⟨[], u, rfl⟩ hu
    have hu' : ¬ closes <:+: u := fun h => hu (h.trans (suffix_cons c u).isInfix)
    have hlast' : '}' ∉ u.getLast? := by
      intro h
      cases u with
      | nil => cases h
      | cons d u => exact hlast (by rwa [getLast?_cons_cons])
    rw [cons_append, untilClose_cons, hlit, ih hu' hlast']
    rfl

/-- What is found before the braces has none. -/
theorem not_closes_of_untilClose {t r : Text} (h : untilClose t = some (u, r)) : ¬ closes <:+: u := by
  induction t generalizing u with
  | nil => exact absurd h (by simp [untilClose])
  | cons c t ih =>
    rw [untilClose_cons] at h
    split at h
    · cases h
      rw [infix_nil]
      exact cons_ne_nil _ _
    · rename_i hlit
      obtain ⟨⟨u', r'⟩, hu', heq⟩ := Option.map_eq_some_iff.mp h
      cases heq
      rw [infix_cons_iff, not_or]
      refine ⟨?_, ih hu'⟩
      rintro ⟨x, hx⟩
      have hfront : c :: t = closes ++ (x ++ (closes ++ r')) := by
        rw [(untilClose_eq_some hu').1, ← append_assoc closes, hx]
        rfl
      rw [lit_eq_some.mpr hfront] at hlit
      cases hlit

/-! ## Reading back -/

theorem printToken_word (w : Text) : printToken tf (lmToken tf (.word w)) = '"' :: (w ++ ['"']) := by
  have hlexical : tf.isLexical (tf.nativeWord w) = true := by simp [TokenFactory.isLexical, tf.type_nativeWord]
  rw [lmToken, printToken, hlexical, tf.label_nativeWord]
  rfl

theorem isDelimiter_of_digit {c : Char} (h : c.isDigit = true) : isDelimiter c = false := by
  refine Bool.eq_false_iff.mpr fun hc => ?_
  simp only [isDelimiter, Bool.or_eq_true, decide_eq_true_eq] at hc
  rcases hc with rfl | rfl <;> exact absurd h (by decide)

theorem not_closes_of_not_mem (h : '}' ∉ u) : ¬ closes <:+: u := fun hin => h (hin.mem mem_cons_self)

/-- How a token of the rule grammars is printed when it comes back: without delimiters, and without closing braces inside
or at the end. -/
theorem printToken_quotable {nd : RhsNode} (hword : ∀ w, nd = .word w → Quotable w) :
    (printToken tf (lmToken tf nd) ≠ [] ∧ ∀ c ∈ printToken tf (lmToken tf nd), isDelimiter c = false) ∧
      ¬ closes <:+: printToken tf (lmToken tf nd) ∧ '}' ∉ (printToken tf (lmToken tf nd)).getLast? := by
  cases nd with
  | word w =>
    have hlast : '}' ∉ ('"' :: (w ++ ['"'])).getLast? := by
      rw [← cons_append, getLast?_concat]
      exact fun h => absurd (Option.some.inj h) (by decide)
    rw [printToken_word]
    obtain rfl | ⟨-, -, hdelims, hcloses⟩ := hword w rfl
    · exact ⟨⟨cons_ne_nil _ _, by simp [isDelimiter]⟩, not_closes_of_not_mem (by simp), hlast⟩
    · refine ⟨⟨cons_ne_nil _ _, fun c hc => ?_⟩, fun hin => ?_, hlast⟩
      · simp only [mem_cons, mem_append, not_mem_nil, or_false] at hc
        rcases hc with rfl | hc | rfl
        · rfl
        · exact hdelims c hc
        · rfl
      · rcases infix_cons_iff.mp hin with ⟨x, hx⟩ | hin
        · exact absurd (List.cons.inj hx).1 (by decide)
        · rcases closes_append_of_head (by simp) hin with hin | hin
          · exact hcloses hin
          · exact not_closes_of_not_mem (by decide) hin
  | index i =>
    have hdigit : ∀ c ∈ showNat i, c.isDigit = true := fun c hc => isDigit_of_mem_showNat hc
    have hbrace : '}' ∉ 'x' :: showNat i := by
      intro h
      rcases mem_cons.mp h with h | h
      · exact absurd h (by decide)
      · exact absurd (hdigit _ h) (by decide)
    refine ⟨⟨cons_ne_nil _ _, fun c hc => ?_⟩, not_closes_of_not_mem hbrace, fun h => hbrace (mem_of_getLast? h)⟩
    rcases mem_cons.mp hc with rfl | hc
    · rfl
    · exact isDelimiter_of_digit (hdigit c hc)

theorem lmToker_printToken {nd : RhsNode} (hword : ∀ w, nd = .word w → Quotable w) (hindex : ∀ i, nd = .index i → i < 2 ^ 32) :
    lmToker tf (printToken tf (lmToken tf nd)) = some (lmToken tf nd) := by
  cases nd with
  | word w =>
    rw [printToken_word]
    exact lmToker_word ((hword w rfl).imp id fun h => ⟨h.1, h.2.1⟩)
  | index i => exact lmToker_index (hindex i rfl)

theorem closes_intercalate {l : List Text} (hl : ∀ w ∈ l, ¬ closes <:+: w ∧ '}' ∉ w.getLast?) :
    ¬ closes <:+: intercalate [' '] l ∧ '}' ∉ (intercalate [' '] l).getLast? := by
  induction l with
  | nil => exact ⟨not_closes_of_not_mem not_mem_nil, by simp⟩
  | cons w l ih =>
    obtain ⟨hw, hlast⟩ := hl w mem_cons_self
    obtain ⟨hbody, hend⟩ := ih fun v hv => hl v (mem_cons_of_mem w hv)
    cases l with
    | nil => simpa [intercalate] using ⟨hw, hlast⟩
    | cons v l =>
      have hsplit : intercalate [' '] (w :: v :: l) = w ++ ' ' :: intercalate [' '] (v :: l) := by
        simp [intercalate]
      rw [hsplit]
      constructor
      · intro hin
        rcases closes_append_of_head (by simp) hin with hin | hin
        · exact hw hin
        · rcases infix_cons_iff.mp hin with ⟨x, hx⟩ | hin
          · exact absurd (List.cons.inj hx).1 (by decide)
          · exact hbody hin
      · rw [getLast?_append_cons, getLast?_cons]
        intro h
        rcases hrest : (intercalate [' '] (v :: l)).getLast? with _ | c
        · rw [hrest] at h
          exact absurd (Option.some.inj h) (by decide)
        · rw [hrest] at h
          exact hend (by rw [hrest]; exact h)

/-- **A sequence of words and indices comes back exactly when each of its words can be quoted**: a quote alone, or characters
without a quote, a space, a tab or the closing braces. -/
theorem readBack_print_iff (ts : List RhsNode) (hindex : ∀ i, RhsNode.index i ∈ ts → i < 2 ^ 32) :
    readBack tf (print tf (ts.map (lmToken tf))) = some (ts.map (lmToken tf)) ↔ ∀ w, RhsNode.word w ∈ ts → Quotable w := by
  constructor
  · intro h w hw
    obtain ⟨⟨s, r⟩, hs, hlm⟩ := Option.bind_eq_some_iff.mp h
    obtain ⟨_, -, huntil⟩ := Option.bind_eq_some_iff.mp hs
    obtain ⟨p, hp, htoker⟩ := exists_of_mem_right (mapM_eq_some_iff.mp hlm) (mem_map_of_mem hw)
    obtain ⟨hdelims, hin⟩ := mem_tokens hp fun c hc => absurd hc not_mem_nil
    obtain ⟨rfl, hquoted⟩ := lmToker_eq_word htoker
    refine hquoted.imp id fun hq => ⟨hq.1, hq.2, fun c hc => hdelims c (by simp [hc]), fun hcloses => ?_⟩
    refine not_closes_of_untilClose huntil (hcloses.trans (List.IsInfix.trans ?_ hin))
    exact ⟨['"'], ['"'], by simp⟩
  · intro h
    have hprinted : ∀ p ∈ (ts.map (lmToken tf)).map (printToken tf), ∃ nd ∈ ts, printToken tf (lmToken tf nd) = p ∧
        ∀ w, nd = .word w → Quotable w := by
      intro p hp
      rw [map_map] at hp
      obtain ⟨nd, hnd, rfl⟩ := mem_map.mp hp
      exact ⟨nd, hnd, rfl, fun w hw => h w (hw ▸ hnd)⟩
    obtain ⟨hcloses, hend⟩ := closes_intercalate fun p hp => by
      obtain ⟨nd, _, rfl, hword⟩ := hprinted p hp
      exact (printToken_quotable hword).2
    have hcut : compoundStr (print tf (ts.map (lmToken tf))) =
        some (intercalate [' '] ((ts.map (lmToken tf)).map (printToken tf)), []) := by
      have h := untilClose_append hcloses hend []
      rw [append_nil] at h
      rw [compoundStr, print, lit_append, Option.bind_some, h]
    rw [readBack, hcut, Option.bind_some, lmString, tokens_intercalate fun p hp => by
      obtain ⟨nd, _, rfl, hword⟩ := hprinted p hp
      exact (printToken_quotable hword).1]
    rw [map_map, mapM_map]
    exact mapM_some fun nd hnd => lmToker_printToken (fun w hw => h w (hw ▸ hnd)) fun i hi => hindex i (hi ▸ hnd)

end

/-- `fat_token_factory`, with `label`. -/
def fat : LabelFactory (Text × TokenType) := { TokenFactory.fat with label := Prod.fst, label_nativeWord := fun _ => rfl }

theorem readBack_print_iff_quote :
    readBack fat (print fat ([.word "the".toList, .index 0, .word ['"']].map (lmToken fat))) =
      some ([.word "the".toList, .index 0, .word ['"']].map (lmToken fat)) := by
  refine (readBack_print_iff _ (by simp)).mpr fun w hw => ?_
  obtain rfl | rfl : w = "the".toList ∨ w = ['"'] := by simpa using hw
  · exact .inr ⟨by simp, by simp, by simp [isDelimiter], not_closes_of_not_mem (by simp)⟩
  · exact .inl rfl

/-- `""@"` is a word of the grammar, a quote and `@`.  Its text matches none of the expressions and becomes a tag. -/
theorem not_readBack_print : ¬ ∀ ts : List RhsNode, (∀ nd ∈ ts, ∃ t, rhsItem t = some (nd, [])) →
    readBack fat (print fat (ts.map (lmToken fat))) = some (ts.map (lmToken fat)) := by
  intro h
  have hback := h [.word "\"@".toList] (by
    intro nd hnd
    rw [mem_singleton.mp hnd]
    exact ⟨"\"\"@\"".toList, by decide⟩)
  revert hback
  decide

end LmString

end Sbmt.Xrs
