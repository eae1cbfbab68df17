import Mathlib

/-!
# Tokens and the dictionary that numbers them

| here | there |
| --- | --- |
| `Token`, `FatToken` | `indexed_token` (`token/indexed_token.hpp:55-128`), `fat_token` |
| `TokenStorage` | `in_memory_token_storage` (`src/in_memory_token_storage.cpp:35-105`): `dict_hash` is the search through `tokens` |
| `Dictionary` | `dictionary<in_memory_token_storage>` (`token/impl/indexed_token.ipp:241-372`), its four storages by token type |

A storage is never so full that `too many … tokens` is thrown.
-/

namespace Sbmt.Grammar

open List Function

/-- `token_type_id`, less the type of the toplevel tag, which is in no storage. -/
inductive TokenType where
  | foreign
  | native
  | tag
  | virtualTag
deriving DecidableEq, Repr

inductive Token where
  | top
  | indexed (type : TokenType) (index : Nat)
deriving DecidableEq, Repr

/-- A token with its label. -/
inductive FatToken where
  | top
  | word (type : TokenType) (label : String)
deriving DecidableEq, Repr

def Token.isVirtual : Token → Bool
  | top => false
  | indexed type _ => type = .virtualTag

def FatToken.isVirtual : FatToken → Bool
  | top => false
  | word type _ => type = .virtualTag

@[ext]
structure TokenStorage where
  tokens : List String
  nodup : tokens.Nodup
deriving DecidableEq

namespace TokenStorage

variable (t : TokenStorage)

def size : Nat := t.tokens.length

/-- `push_back`, of a token that is not there. -/
def pushBack (tok : String) (h : tok ∉ t.tokens) : TokenStorage :=
  ⟨t.tokens ++ [tok], nodup_append.2 ⟨t.nodup, nodup_singleton tok, by
    rintro a ha b hb rfl
    exact h (mem_singleton.1 hb ▸ ha)⟩⟩

/-- `get_index`: the token's index, and the storage with the token in it. -/
def getIndex (tok : String) : Nat × TokenStorage :=
  if h : tok ∈ t.tokens then (t.tokens.idxOf tok, t) else (t.size, t.pushBack tok h)

def shrink (newEnd : Nat) : TokenStorage :=
  ⟨t.tokens.take newEnd, t.nodup.sublist (take_sublist _ _)⟩

def reset : TokenStorage := ⟨[], nodup_nil⟩

/-- The storage `t` is an older state of `u`: what it numbers, `u` numbers the same. -/
def Older (t u : TokenStorage) : Prop := t.tokens <+: u.tokens

theorem older_getIndex (tok : String) : t.Older (t.getIndex tok).2 := by
  unfold getIndex
  split
  · exact prefix_rfl
  · exact prefix_append _ _

variable {t : TokenStorage}

theorem getIndex_of_mem {tok : String} (h : tok ∈ t.tokens) : t.getIndex tok = (t.tokens.idxOf tok, t) := dif_pos h

theorem getIndex_eq_iff {tok : String} : (t.getIndex tok).2 = t ↔ tok ∈ t.tokens := by
  constructor
  · intro h
    by_contra hmem
    rw [getIndex, dif_neg hmem] at h
    have hlen := congrArg (fun u => u.tokens.length) h
    simp [pushBack] at hlen
  · intro h
    rw [getIndex_of_mem h]

theorem mem_getIndex (t : TokenStorage) (tok : String) : tok ∈ (t.getIndex tok).2.tokens := by
  unfold getIndex
  split
  · next h => exact h
  · exact mem_append_right _ (mem_singleton_self tok)

/-- The index is that of the label, before and after. -/
theorem getElem?_getIndex (t : TokenStorage) (tok : String) :
    (t.getIndex tok).2.tokens[(t.getIndex tok).1]? = some tok := by
  unfold getIndex
  split
  · next h =>
    rw [getElem?_eq_getElem (idxOf_lt_length_of_mem h)]
    exact congrArg some (getElem_idxOf _)
  · simp [pushBack, size]

theorem Older.antisymm {u : TokenStorage} (h : t.Older u) (h' : u.Older t) : t = u := by
  ext1
  exact h.eq_of_length_le h'.length_le

end TokenStorage

/-- The four storages. -/
@[ext]
structure Dictionary where
  storage : TokenType → TokenStorage

/-- `subgrammar_dict_markers` -/
abbrev Markers := TokenType → Nat

namespace Dictionary

variable (d : Dictionary)

/-- `create_token` -/
def createToken : FatToken → Token × Dictionary
  | .top => (.top, d)
  | .word type label =>
    (.indexed type ((d.storage type).getIndex label).1,
      ⟨update d.storage type ((d.storage type).getIndex label).2⟩)

/-- The dictionary after these tokens were asked for, one after the other. -/
def createTokens (toks : List FatToken) : Dictionary :=
  toks.foldl (fun d tok => (d.createToken tok).2) d

/-- `init_special_tokens` -/
def specialTokens : List FatToken :=
  [.word .foreign "<foreign-sentence>", .word .foreign "</foreign-sentence>", .word .foreign "<unknown-word/>",
    .word .native "<unknown-word/>", .word .native "<epsilon/>", .word .native "<separator/>"]

/-- `reset_storage` -/
def reset : Dictionary := (⟨fun _ => .reset⟩ : Dictionary).createTokens specialTokens

def shrink (d : Dictionary) (m : Markers) : Dictionary := ⟨fun type => (d.storage type).shrink (m type)⟩

/-- `dictionary_boundary` -/
def dictionaryBoundary : Markers := fun type => (d.storage type).size

/-- The token is one the dictionary can give without making it. -/
def Has : FatToken → Prop
  | .top => True
  | .word type label => label ∈ (d.storage type).tokens

instance (d : Dictionary) : DecidablePred d.Has
  | .top => inferInstanceAs (Decidable True)
  | .word type label => inferInstanceAs (Decidable (label ∈ (d.storage type).tokens))

/-- The indexed token stands for the labelled one. -/
def Names : FatToken → Token → Prop
  | .top, tok => tok = .top
  | .word type label, tok => ∃ i, tok = .indexed type i ∧ (d.storage type).tokens[i]? = some label

/-- `d` is an older state of `d'`. -/
def Older (d d' : Dictionary) : Prop := ∀ type, (d.storage type).Older (d'.storage type)

theorem Older.refl : d.Older d := fun _ => prefix_rfl

variable {d d' : Dictionary}

theorem Older.trans {d'' : Dictionary} (h : d.Older d') (h' : d'.Older d'') : d.Older d'' :=
  fun type => (h type).trans (h' type)

theorem Older.antisymm (h : d.Older d') (h' : d'.Older d) : d = d' := by
  ext1
  funext type
  exact (h type).antisymm (h' type)

theorem older_createToken (d : Dictionary) (tok : FatToken) : d.Older (d.createToken tok).2 := by
  cases tok with
  | top => exact .refl d
  | word type label =>
    intro type'
    show (d.storage type').Older (update d.storage type _ type')
    by_cases h : type' = type
    · subst h
      rw [update_self]
      exact TokenStorage.older_getIndex _ _
    · rw [update_of_ne h]
      exact prefix_rfl

theorem older_createTokens (d : Dictionary) (toks : List FatToken) : d.Older (d.createTokens toks) := by
  induction toks generalizing d with
  | nil => exact .refl d
  | cons tok toks ih => exact (older_createToken d tok).trans (ih _)

theorem createTokens_append (d : Dictionary) (toks toks' : List FatToken) :
    d.createTokens (toks ++ toks') = (d.createTokens toks).createTokens toks' :=
  foldl_append

variable {tok : FatToken}

theorem Has.mono (h : d.Older d') (htok : d.Has tok) : d'.Has tok := by
  cases tok with
  | top => trivial
  | word type label => exact (h type).subset htok

theorem createToken_eq_iff : (d.createToken tok).2 = d ↔ d.Has tok := by
  cases tok with
  | top => exact ⟨fun _ => trivial, fun _ => rfl⟩
  | word type label =>
    constructor
    · intro h
      apply TokenStorage.getIndex_eq_iff.1
      have hat := congrFun (congrArg Dictionary.storage h) type
      exact (update_self type _ d.storage).symm.trans hat
    · intro h
      ext1
      show update d.storage type _ = d.storage
      rw [TokenStorage.getIndex_eq_iff.2 h, update_eq_self]

/-- Asking for tokens leaves the dictionary as it is exactly if it has them all. -/
theorem createTokens_eq_iff {toks : List FatToken} : d.createTokens toks = d ↔ ∀ tok ∈ toks, d.Has tok := by
  induction toks with
  | nil => exact ⟨fun _ _ h => absurd h not_mem_nil, fun _ => rfl⟩
  | cons tok toks ih =>
    rw [forall_mem_cons]
    have hcons : d.createTokens (tok :: toks) = (d.createToken tok).2.createTokens toks := rfl
    constructor
    · intro h
      -- the first step is between `d` and `d`, so it is none
      have hfirst : (d.createToken tok).2 = d :=
        Older.antisymm ((older_createTokens _ toks).trans (by rw [← hcons, h]; exact .refl d)) (older_createToken d tok)
      rw [hcons, hfirst] at h
      exact ⟨createToken_eq_iff.1 hfirst, ih.1 h⟩
    · rintro ⟨htok, htoks⟩
      rw [hcons, createToken_eq_iff.2 htok]
      exact ih.2 htoks

variable (d tok) in
theorem has_createToken : (d.createToken tok).2.Has tok := by
  cases tok with
  | top => trivial
  | word type label =>
    show label ∈ (update d.storage type _ type).tokens
    rw [update_self]
    exact TokenStorage.mem_getIndex _ _

theorem has_createTokens (d : Dictionary) (toks : List FatToken) : ∀ tok ∈ toks, (d.createTokens toks).Has tok := by
  induction toks generalizing d with
  | nil => exact fun _ h => absurd h not_mem_nil
  | cons tok toks ih =>
    intro tok' htok'
    rcases mem_cons.1 htok' with rfl | htok'
    · exact (has_createToken d tok').mono (older_createTokens _ toks)
    · exact ih _ tok' htok'

variable (d tok) in
theorem names_createToken : (d.createToken tok).2.Names tok (d.createToken tok).1 := by
  cases tok with
  | top => rfl
  | word type label =>
    refine ⟨_, rfl, ?_⟩
    show (update d.storage type _ type).tokens[_]? = some label
    rw [update_self]
    exact TokenStorage.getElem?_getIndex _ _

variable {t : Token}

/-- An older token keeps its index. -/
theorem Names.mono (h : d.Older d') (ht : d.Names tok t) : d'.Names tok t := by
  cases tok with
  | top => exact ht
  | word type label =>
    obtain ⟨i, rfl, hi⟩ := ht
    obtain ⟨rest, hrest⟩ := h type
    refine ⟨i, rfl, ?_⟩
    rw [← hrest, getElem?_append_left (List.getElem?_eq_some_iff.1 hi).1, hi]

theorem Names.unique {t' : Token} (h : d.Names tok t) (h' : d.Names tok t') : t = t' := by
  cases tok with
  | top => exact h.trans h'.symm
  | word type label =>
    obtain ⟨i, rfl, hi⟩ := h
    obtain ⟨j, rfl, hj⟩ := h'
    obtain ⟨hi', hi⟩ := List.getElem?_eq_some_iff.1 hi
    obtain ⟨hj', hj⟩ := List.getElem?_eq_some_iff.1 hj
    rw [(d.storage type).nodup.getElem_inj_iff.1 (hi.trans hj.symm)]

theorem Names.isVirtual (h : d.Names tok t) : t.isVirtual = tok.isVirtual := by
  cases tok with
  | top =>
    rw [show t = .top from h]
    rfl
  | word type label =>
    obtain ⟨i, rfl, -⟩ := h
    rfl

theorem Older.shrink (h : d.Older d') : d'.shrink d.dictionaryBoundary = d := by
  ext1
  funext type
  ext1
  exact (prefix_iff_eq_take.1 (h type)).symm

theorem shrink_dictionaryBoundary (d : Dictionary) : d.shrink d.dictionaryBoundary = d := (Older.refl d).shrink

end Dictionary

end Sbmt.Grammar
