/-
`KGENDType`, the element types of the kernel generator's SIMD values.

`DType.h` packs a type into one byte: an integer is its signedness and the
logarithm of its width, a complex type is its element type with one bit set,
and `KGENDType.h` adds the pointer-sized types.  The constructors below are
the cases of that encoding, the predicates are its masks.
-/
import Mathlib

/-- The floating-point formats of `FloatTypes.def`. -/
inductive FloatKind
  | f4e2m1fn
  | f6e2m3fn
  | f6e3m2fn
  | f8e8m0fnu
  | f8e3m4
  | f8e4m3fn
  | f8e4m3fnuz
  | f8e5m2
  | f8e5m2fnuz
  | f16
  | bf16
  | f32
  | f64
  deriving DecidableEq, Repr

/-- The size in bits of the `APFloat` semantics of a format. -/
def FloatKind.sizeInBits : FloatKind → ℕ
  | f4e2m1fn => 4
  | f6e2m3fn | f6e3m2fn => 6
  | f8e8m0fnu | f8e3m4 | f8e4m3fn | f8e4m3fnuz | f8e5m2 | f8e5m2fnuz => 8
  | f16 | bf16 => 16
  | f32 => 32
  | f64 => 64

def FloatKind.shortName : FloatKind → String
  | f4e2m1fn => "f4e2m1fn"
  | f6e2m3fn => "f6e2m3fn"
  | f6e3m2fn => "f6e3m2fn"
  | f8e8m0fnu => "f8e8m0fnu"
  | f8e3m4 => "f8e3m4"
  | f8e4m3fn => "f8e4m3fn"
  | f8e4m3fnuz => "f8e4m3fnuz"
  | f8e5m2 => "f8e5m2"
  | f8e5m2fnuz => "f8e5m2fnuz"
  | f16 => "f16"
  | bf16 => "bf16"
  | f32 => "f32"
  | f64 => "f64"

inductive KGENDType
  | invalid
  | kBool
  | address
  | index
  | uindex
  | int (logWidth : ℕ) (isSigned isComplex : Bool)
  | float (kind : FloatKind) (isComplex : Bool)
  deriving DecidableEq, Repr

namespace KGENDType

def isBool : KGENDType → Bool
  | kBool => true
  | _ => false

def isAddress : KGENDType → Bool
  | address => true
  | _ => false

def isIndex : KGENDType → Bool
  | index => true
  | _ => false

def isUIndex : KGENDType → Bool
  | uindex => true
  | _ => false

def isInt : KGENDType → Bool
  | int _ _ _ => true
  | _ => false

def isFloat : KGENDType → Bool
  | float _ _ => true
  | _ => false

def isComplex : KGENDType → Bool
  | int _ _ c => c
  | float _ c => c
  | _ => false

/-- Signed integers; the index type counts as signed. -/
def isSInt : KGENDType → Bool
  | index => true
  | int _ s _ => s
  | _ => false

def isIntLike (t : KGENDType) : Bool :=
  t.isIndex || t.isUIndex || t.isInt || t.isBool || t.isAddress

/-- `DType::getWidthInBits`; `none` stands for the `-1` of an unknown width.
A `bool` is one byte wide here. -/
def getWidthInBits : KGENDType → Option ℕ
  | kBool => some 8
  | int k _ c => some (if c then 2 ^ k * 2 else 2 ^ k)
  | float k c => some (if c then k.sizeInBits * 2 else k.sizeInBits)
  | _ => none

/-- `DType::getSizeInBytes` of one element, `-1` where there is no size.
Integers narrower than a byte still take one. -/
def getSizeInBytes : KGENDType → ℤ
  | kBool => 1
  | int k _ c => (((if c then 2 else 1) * 2 ^ k + 7) / 8 : ℕ)
  | float k c => (((if c then 2 else 1) * k.sizeInBits + 7) / 8 : ℕ)
  | _ => -1

def getAsString : KGENDType → String
  | invalid => "invalid"
  | kBool => "bool"
  | address => "address"
  | index => "index"
  | uindex => "uindex"
  | int k s c =>
    let name := (if s then "si" else "ui") ++ toString (2 ^ k)
    if c then "complex<" ++ name ++ ">" else name
  | float k c => if c then "complex<" ++ k.shortName ++ ">" else k.shortName

/-- The width with the target's index size in hand, as the folders compute
it: without a target, an index has no known width. -/
def widthOn (target : Option ℕ) (t : KGENDType) : Option ℕ :=
  match t.getWidthInBits with
  | some w => some w
  | none => if !t.isIndex && !t.isUIndex then none else target

/-- The integer types proper: signed and unsigned integers of any width, and
the two index types. -/
def IsInteger : KGENDType → Prop
  | index => True
  | uindex => True
  | int _ _ c => c = false
  | _ => False

/-- What an integer type of known width can be. -/
theorem IsInteger.cases_width {target : Option ℕ} {t : KGENDType} {w : ℕ} (h : t.IsInteger)
    (hw : t.widthOn target = some w) :
    (target = some w ∧ (t = index ∨ t = uindex)) ∨ ∃ k s, t = int k s false ∧ w = 2 ^ k := by
  cases t with
  | index => exact .inl ⟨by simpa [widthOn, getWidthInBits, isIndex] using hw, .inl rfl⟩
  | uindex =>
    exact .inl ⟨by simpa [widthOn, getWidthInBits, isIndex, isUIndex] using hw, .inr rfl⟩
  | int k s c =>
    obtain rfl : c = false := h
    exact .inr ⟨k, s, rfl, by simpa [widthOn, getWidthInBits, eq_comm] using hw⟩
  | invalid | kBool | address | float _ _ => exact h.elim

theorem IsInteger.isIntLike {t : KGENDType} (h : t.IsInteger) : t.isIntLike = true := by
  cases t <;> simp_all [IsInteger, KGENDType.isIntLike, isIndex, isUIndex, isInt]

end KGENDType
