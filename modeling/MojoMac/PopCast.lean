/-
`pop.cast` between integers: canonicalization, lowering and folding.

`CastOp::canonicalize` rewrites `cast(cast(x : T1 to T2) to T3)` into
`cast(x : T1 to T3)`.  Its local variables are one step off: `inType` is the
type *between* the casts, `intermediateType` the type of `x`.  In the branch
for a widening second cast the sign of `T2` is compared with the sign of `T3`
and the sign of `T1` is never looked at, so the rewrite changes the value of
a chain that extends under two different signs.

* `intCast` — what a cast does to the bits;
* `convertPOPCast_eq_intCast`, `extOrTrunc_eq_intCast` — the lowering and the
  folder compute it;
* `convertPOPCast_eq_foldCast_iff` — when they agree, casts from and to `bool`
  included: the folder asks whether an integer is zero, the lowering keeps its
  lowest bit;
* `canonicalize_same_bits_iff` — when the rewrite keeps the bits.
-/
import MojoMac.KgenDType

namespace PopCast

/-! ### Casts of integer values -/

/-- An integer cast: truncate to a narrower type, otherwise extend by the
signedness of the source. -/
def intCast {w : ℕ} (isSigned : Bool) (v : ℕ) (x : BitVec w) : BitVec v :=
  if v < w then x.truncate v
  else if isSigned then x.signExtend v else x.zeroExtend v

/-- The bits of a cast: below both widths they are copied, above the source
they are its sign bit or zero. -/
theorem getLsbD_intCast {w : ℕ} (s : Bool) (v : ℕ) (x : BitVec w) (i : ℕ) :
    (intCast s v x).getLsbD i = (decide (i < v) && if i < w then x.getLsbD i else s && x.msb) := by
  unfold intCast
  by_cases hvw : v < w
  · rw [if_pos hvw, BitVec.truncate_eq_setWidth, BitVec.getLsbD_setWidth]
    by_cases hi : i < v
    · simp [hi, hi.trans hvw]
    · simp [hi]
  rw [if_neg hvw]
  cases s
  · rw [if_neg (by simp), BitVec.zeroExtend_eq_setWidth, BitVec.getLsbD_setWidth]
    by_cases hi : i < w
    · simp [hi]
    · simp [hi, BitVec.getLsbD_of_ge x i (by omega)]
  · rw [if_pos rfl, BitVec.getLsbD_signExtend]
    simp

/-- `APSInt::extOrTrunc`, the folder's cast of an integer constant. -/
def extOrTrunc {w : ℕ} (inSigned : Bool) (intWidth : ℕ) (x : BitVec w) : BitVec intWidth :=
  if intWidth > w then
    if inSigned then x.signExtend intWidth else x.zeroExtend intWidth
  else x.truncate intWidth

theorem extOrTrunc_eq_intCast {w : ℕ} (s : Bool) (v : ℕ) (x : BitVec w) :
    extOrTrunc s v x = intCast s v x := by
  unfold extOrTrunc intCast
  rcases lt_trichotomy v w with h | h | h
  · rw [if_neg (by omega), if_pos h]
  · -- equal widths: all three operations are the identity
    subst h
    cases s <;> simp
  · rw [if_pos h, if_neg (by omega : ¬ v < w)]

/-- The LLVM operations that `ConvertPOPCast` selects from. -/
inductive LLVMCast
  | sext
  | zext
  | trunc
  | siToFP
  | uiToFP
  | fpToSI
  | fpToUI
  | fpExt
  | fpTrunc
  deriving DecidableEq, Repr

/-- `ConvertPOPCast::getDTypeSizeInBytes`. -/
def getDTypeSizeInBytes (indexBitWidth : ℕ) (dtype : KGENDType) : ℤ :=
  if dtype.isIndex || dtype.isUIndex then (indexBitWidth / 8 : ℕ) else dtype.getSizeInBytes

/-- The types that are lowered to LLVM integers. -/
def loweredToInteger (t : KGENDType) : Bool :=
  t.isBool || t.isInt || t.isIndex || t.isUIndex

/-- The formats of at most eight bits, which have no LLVM type of their own. -/
def isFPTyLoweredAsInt : KGENDType → Bool
  | .float k false => k.sizeInBits ≤ 8
  | _ => false

/-- A float of at most eight bits. -/
def isNarrowFloat (t : KGENDType) : Bool :=
  t.isFloat && t.getWidthInBits.any (· ≤ 8)

/-- `ConvertPOPCast::matchAndRewrite`: the operation the cast becomes, `none`
for the no-op conversion between equivalent types. -/
def convertPOPCast (indexBitWidth : ℕ) (inDType outDType : KGENDType) :
    Except String (Option LLVMCast) :=
  let inByteCount := getDTypeSizeInBytes indexBitWidth inDType
  let outByteCount := getDTypeSizeInBytes indexBitWidth outDType
  if isNarrowFloat inDType || isNarrowFloat outDType then .error "illegal conversion"
  else if loweredToInteger inDType then
    if loweredToInteger outDType then
      -- a bool counts as a byte but is lowered to one bit
      if outByteCount > inByteCount || inDType.isBool then
        .ok (some (if inDType.isSInt then .sext else .zext))
      else if outByteCount < inByteCount || outDType.isBool then .ok (some .trunc)
      else .ok none
    else .ok (some (if inDType.isSInt then .siToFP else .uiToFP))
  else if loweredToInteger outDType then
    .ok (some (if outDType.isSInt then .fpToSI else .fpToUI))
  else if outByteCount > inByteCount then .ok (some .fpExt)
  else if outByteCount < inByteCount then
    if isFPTyLoweredAsInt outDType then
      .error ("casts between " ++ inDType.getAsString ++ " and " ++ outDType.getAsString ++
        " unsupported")
    else .ok (some .fpTrunc)
  else if outDType ≠ inDType then .error "casts between 'bf16' and 'f16' unsupported"
  else .ok none

/-- What an integer operation does to the bits of a lane; the no-op passes
them on. -/
def applyCast {w : ℕ} (v : ℕ) (x : BitVec w) : Option LLVMCast → Option (BitVec v)
  | some .sext => some (x.signExtend v)
  | some .zext => some (x.zeroExtend v)
  | some .trunc => some (x.truncate v)
  | none => some (x.setWidth v)
  | _ => none

/-- An integer of whole bytes is lowered to an integer of that many bytes. -/
theorem getDTypeSizeInBytes_integer {idx w : ℕ} {t : KGENDType} (ht : t.IsInteger)
    (hw : t.widthOn (some idx) = some w) (h8 : 8 ∣ w) :
    getDTypeSizeInBytes idx t = (w / 8 : ℕ) ∧ loweredToInteger t = true ∧
      isNarrowFloat t = false ∧ t.isBool = false := by
  rcases ht.cases_width hw with ⟨hidx, rfl | rfl⟩ | ⟨k, s, rfl, rfl⟩
  · obtain rfl := Option.some_inj.mp hidx
    exact ⟨rfl, rfl, rfl, rfl⟩
  · obtain rfl := Option.some_inj.mp hidx
    exact ⟨rfl, rfl, rfl, rfl⟩
  refine ⟨?_, rfl, rfl, rfl⟩
  simp only [getDTypeSizeInBytes, KGENDType.isIndex, KGENDType.isUIndex,
    KGENDType.getSizeInBytes, Bool.or_self, Bool.false_eq_true, if_false, one_mul]
  congr 1
  omega

/-- On integers of whole bytes the lowering is `intCast`. -/
theorem convertPOPCast_eq_intCast {idx w v : ℕ} {tin tout : KGENDType}
    (hin : tin.IsInteger) (hout : tout.IsInteger)
    (hw : tin.widthOn (some idx) = some w) (hv : tout.widthOn (some idx) = some v)
    (h8w : 8 ∣ w) (h8v : 8 ∣ v) (x : BitVec w) :
    (convertPOPCast idx tin tout).toOption.bind (applyCast v x) =
      some (intCast tin.isSInt v x) := by
  obtain ⟨hbw, hlw, hnw, hboolw⟩ := getDTypeSizeInBytes_integer hin hw h8w
  obtain ⟨hbv, hlv, hnv, hboolv⟩ := getDTypeSizeInBytes_integer hout hv h8v
  have hsel : convertPOPCast idx tin tout =
      if w < v then .ok (some (if tin.isSInt then .sext else .zext))
      else if v < w then .ok (some .trunc) else .ok none := by
    have hlt : ((w / 8 : ℕ) : ℤ) < ((v / 8 : ℕ) : ℤ) ↔ w < v := by omega
    have hgt : ((v / 8 : ℕ) : ℤ) < ((w / 8 : ℕ) : ℤ) ↔ v < w := by omega
    simp only [convertPOPCast, hbw, hbv, hlw, hlv, hnw, hnv, hboolw, hboolv, Bool.or_self,
      Bool.or_false, decide_eq_true_eq, Bool.false_eq_true, if_false, if_true, gt_iff_lt, hlt, hgt]
  rw [hsel]
  unfold intCast
  rcases lt_trichotomy v w with h | h | h
  · rw [if_neg (by omega), if_pos h, if_pos h]
    rfl
  · subst h
    rw [if_neg (lt_irrefl v), if_neg (lt_irrefl v), if_neg (lt_irrefl v)]
    cases tin.isSInt <;> simp [applyCast, Except.toOption]
  · rw [if_pos h, if_neg (by omega : ¬ v < w)]
    cases tin.isSInt <;> rfl

/-! ### Casts from and to `bool` -/

/-- The bits of a value: one for a `bool`, and as many as its type has for an
integer of whole bytes. -/
def bitWidth : KGENDType → Option ℕ
  | .kBool => some 1
  | .int k _ false => if 8 ∣ 2 ^ k then some (2 ^ k) else none
  | _ => none

/-- `foldCast` of a lane, between `bool` and integers. -/
def foldCast (inType dtype : KGENDType) {w : ℕ} (v : ℕ) (x : BitVec w) : BitVec v :=
  if dtype = inType then x.setWidth v
  else if dtype.isInt then
    if inType.isBool then x.zeroExtend v else extOrTrunc inType.isSInt v x
  else if x = 0#w then 0 else 1

theorem bitWidth_cases {t : KGENDType} {w : ℕ} (h : bitWidth t = some w) :
    (t = .kBool ∧ w = 1) ∨
      (t.isInt ∧ t ≠ .kBool ∧ t.IsInteger ∧ 8 ∣ w ∧ 0 < w ∧ ∀ target, t.widthOn target = some w) := by
  unfold bitWidth at h
  split at h
  · exact .inl ⟨rfl, (Option.some.inj h).symm⟩
  · split at h
    · obtain rfl := Option.some.inj h
      exact .inr ⟨rfl, nofun, rfl, ‹_›, Nat.two_pow_pos _, fun _ => rfl⟩
    · cases h
  · cases h

/-- The lowest bit of a number tells whether it is zero unless it is even and
positive. -/
theorem truncate_one_eq_iff {w : ℕ} (x : BitVec w) :
    x.truncate 1 = (if x = 0#w then 0 else 1) ↔ ¬ (x ≠ 0#w ∧ x.getLsbD 0 = false) := by
  by_cases hx : x = 0#w
  · simp [hx]
  · rw [if_neg hx, BitVec.eq_of_getLsbD_eq_iff]
    simp [hx]

/-- **Folding and lowering a cast.**  For a lane of a `bool` or of an integer
of whole bytes cast to another such type, the operation that `ConvertPOPCast`
selects computes what `foldCast` returns, except that a positive even integer
cast to `bool` is folded to true and truncated to false. -/
theorem convertPOPCast_eq_foldCast_iff (idx : ℕ) {tin tout : KGENDType} {w v : ℕ}
    (hw : bitWidth tin = some w) (hv : bitWidth tout = some v) (x : BitVec w) :
    (convertPOPCast idx tin tout).toOption.bind (applyCast v x) = some (foldCast tin tout v x) ↔
      ¬ (tin.isInt ∧ tout.isBool ∧ x ≠ 0#w ∧ x.getLsbD 0 = false) := by
  have hflags : getDTypeSizeInBytes idx .kBool = 1 ∧ loweredToInteger .kBool ∧
      isNarrowFloat .kBool = false ∧ KGENDType.kBool.isBool ∧ KGENDType.kBool.isInt = false ∧
      KGENDType.kBool.isSInt = false := ⟨rfl, rfl, rfl, rfl, rfl, rfl⟩
  rcases bitWidth_cases hw with ⟨rfl, rfl⟩ | ⟨hint, hne, hin, h8, hpos, hwid⟩
  · rcases bitWidth_cases hv with ⟨rfl, rfl⟩ | ⟨hint, hne, hout, h8, -, hwid⟩
    · -- `zext` from one bit to one bit
      simp [convertPOPCast, hflags, applyCast, foldCast, Except.toOption]
    · obtain ⟨-, hlow, hnarrow, -⟩ := getDTypeSizeInBytes_integer hout (hwid (some idx)) h8
      simp [convertPOPCast, hflags, hlow, hnarrow, hint, hne, applyCast, foldCast, Except.toOption]
  obtain ⟨hbytes, hlow, hnarrow, hbool⟩ := getDTypeSizeInBytes_integer hin (hwid (some idx)) h8
  rcases bitWidth_cases hv with ⟨rfl, rfl⟩ | ⟨hint', -, hout, h8', -, hwid'⟩
  · have hle : ¬ (w / 8 : ℤ) < 1 := by omega
    have hsel : convertPOPCast idx tin .kBool = .ok (some .trunc) := by
      simp [convertPOPCast, hflags, hbytes, hlow, hnarrow, hbool, hle]
    simpa [hsel, hflags, hne.symm, hint, applyCast, foldCast, Except.toOption] using
      truncate_one_eq_iff x
  · rw [convertPOPCast_eq_intCast hin hout (hwid _) (hwid' _) h8 h8', foldCast]
    obtain ⟨-, -, -, hbool'⟩ := getDTypeSizeInBytes_integer hout (hwid' (some idx)) h8'
    by_cases heq : tout = tin
    · obtain rfl : v = w := Option.some.inj ((hwid' none).symm.trans (heq ▸ hwid none))
      simp [heq, hbool, intCast]
    · simp [heq, hint', hbool, hbool', extOrTrunc_eq_intCast]

/-- A `si8` of value 3 is true on both ways. -/
theorem convertPOPCast_eq_foldCast_iff_three :
    (convertPOPCast 64 (.int 3 true false) .kBool).toOption.bind (applyCast 1 (3 : BitVec 8)) =
      some (foldCast (.int 3 true false) .kBool 1 (3 : BitVec 8)) :=
  (@convertPOPCast_eq_foldCast_iff 64 (.int 3 true false) .kBool 8 1 rfl rfl 3).mpr (by decide)

/-- A `si8` of value 2 is folded to true; the lowering truncates it to false. -/
theorem foldCast_differs_two :
    foldCast (.int 3 true false) .kBool 1 (2 : BitVec 8) = 1 ∧
      convertPOPCast 64 (.int 3 true false) .kBool = .ok (some .trunc) ∧
      applyCast 1 (2 : BitVec 8) (some .trunc) = some 0 := by
  decide

/-! ### Canonicalization -/

/-- The operand graph a cast sits in: a cast of a value to an element type
(`none` while the type is still a parameter), with the information whether the
result has a single use, or any other value. -/
inductive Value
  | other (dtype : Option KGENDType)
  | cast (input : Value) (dtype : Option KGENDType) (hasOneUse : Bool)
  deriving DecidableEq, Repr

def Value.getResolvedDType : Value → Option KGENDType
  | other t => t
  | cast _ t _ => t

/-- Types that the pattern does not handle. -/
def isUnsupportedType (t : KGENDType) : Bool :=
  !t.isIntLike && (t.isComplex || !t.isFloat)

/-- `CastOp::canonicalize`, with the source's names: `inType` is the result
type of the inner cast and `intermediateType` the type of its operand.
`target` is the index width of the target in scope, if there is one. -/
def canonicalize (target : Option ℕ) : Value → Except String Value
  | .cast (.cast x inType? hasOneUse) outType? outOneUse =>
    if !hasOneUse then .error "intermediate cast has multiple uses"
    else
      match inType?, outType?, x.getResolvedDType with
      | some inType, some outType, some intermediateType =>
        if isUnsupportedType inType || isUnsupportedType outType ||
            isUnsupportedType intermediateType ||
            inType.isIntLike != outType.isIntLike ||
            inType.isIntLike != intermediateType.isIntLike then
          .error "not all types are known or supported"
        else
          match inType.widthOn target, outType.widthOn target,
              intermediateType.widthOn target with
          | some inWidth, some outWidth, some intermediateWidth =>
            if outWidth < inWidth then
              -- the final cast truncates
              if outWidth > intermediateWidth && intermediateType.isIntLike then
                .error "intermediate truncation affects result"
              else .ok (.cast x outType? outOneUse)
            else if outWidth > inWidth then
              -- the final cast extends
              if inWidth < intermediateWidth ||
                  (inType.isIntLike && inType.isSInt != outType.isSInt) then
                .error "intermediate extension affects result"
              else .ok (.cast x outType? outOneUse)
            else
              if inWidth < intermediateWidth ||
                  intermediateType.isIntLike != inType.isIntLike then
                .error "intermediate extension affects result"
              else if inType.isInt && !outType.isIndex && !outType.isUIndex &&
                  inType.isSInt != outType.isSInt then
                .error "intermediate extension affects result"
              else .ok (.cast x outType? outOneUse)
          | _, _, _ => .error "bitwidths of types are unknown"
      | _, _, _ => .error "not all types are known or supported"
  | _ => .error "not a cast of a cast"

/-! ### When the rewrite keeps the bits -/

/-- What a successful rewrite has checked, on integer types: the result is the
operand of the inner cast, and the widths and signs are in one of the three
accepted positions. -/
theorem canonicalize_ok {target : Option ℕ} {x v : Value} {t₁ t₂ t₃ : KGENDType}
    {one out : Bool} {w₁ w₂ w₃ : ℕ} (ht₁ : x.getResolvedDType = some t₁)
    (hi₁ : t₁.IsInteger) (hi₂ : t₂.IsInteger) (hi₃ : t₃.IsInteger)
    (hw₁ : t₁.widthOn target = some w₁) (hw₂ : t₂.widthOn target = some w₂)
    (hw₃ : t₃.widthOn target = some w₃)
    (h : canonicalize target (.cast (.cast x (some t₂) one) (some t₃) out) = .ok v) :
    v = .cast x (some t₃) out ∧
      (w₃ < w₂ ∧ w₃ ≤ w₁ ∨ w₂ < w₃ ∧ w₁ ≤ w₂ ∧ t₂.isSInt = t₃.isSInt ∨ w₃ = w₂ ∧ w₁ ≤ w₂) := by
  have hl₁ := hi₁.isIntLike
  have hl₂ := hi₂.isIntLike
  have hl₃ := hi₃.isIntLike
  simp only [canonicalize, ht₁, hw₁, hw₂, hw₃, isUnsupportedType, hl₁, hl₂, hl₃, Bool.not_true,
    Bool.false_and, bne_self_eq_false, Bool.or_self, Bool.false_eq_true, if_false] at h
  split_ifs at h with hone hlt hrej hgt hrej hrej hsign
  · refine ⟨(Except.ok.inj h).symm, .inl ⟨hlt, ?_⟩⟩
    simpa using hrej
  · refine ⟨(Except.ok.inj h).symm, .inr (.inl ⟨hgt, ?_⟩)⟩
    simpa using hrej
  · refine ⟨(Except.ok.inj h).symm, .inr (.inr ⟨by omega, ?_⟩)⟩
    simpa using hrej

/-- The sign bit of a cast. -/
theorem msb_intCast {w v : ℕ} (s : Bool) (x : BitVec w) (h : w ≤ v) :
    (intCast s v x).msb = if w = v then x.msb else s && x.msb := by
  rw [BitVec.msb_eq_getLsbD_last, getLsbD_intCast]
  by_cases hwv : w = v
  · subst hwv
    rw [if_pos rfl, BitVec.msb_eq_getLsbD_last]
    by_cases h0 : w = 0
    · subst h0
      simp
    · simp [Nat.sub_lt (Nat.pos_of_ne_zero h0) one_pos]
  · rw [if_neg hwv, if_neg (by omega), decide_eq_true (by omega : v - 1 < v), Bool.true_and]

/-- A cast through a type at least as wide as its source, or wider than its
target, changes nothing unless it extends twice under two signs and the bit
that is copied up is set. -/
theorem intCast_intCast_eq_iff {w₁ w₂ w₃ : ℕ} {s₁ s₂ : Bool} (x : BitVec w₁)
    (h : w₃ < w₂ ∧ w₃ ≤ w₁ ∨ w₁ ≤ w₂) : intCast s₂ w₃ (intCast s₁ w₂ x) = intCast s₁ w₃ x ↔
      ¬ (w₂ < w₃ ∧ s₁ ≠ s₂ ∧ (w₁ = w₂ ∨ s₁ = true) ∧ x.msb = true) := by
  constructor
  · rintro heq ⟨hlt, hs, hw, hmsb⟩
    have h12 : w₁ ≤ w₂ := by omega
    -- the top bit of the result tells the two chains apart
    have htop := congrArg BitVec.msb heq
    rw [msb_intCast _ _ hlt.le, msb_intCast _ _ h12, msb_intCast _ _ (by omega),
      if_neg hlt.ne, if_neg (by omega : w₁ ≠ w₃), hmsb] at htop
    rcases hw with hw | hw
    · simp only [if_pos hw, Bool.and_true] at htop
      exact hs htop.symm
    · subst hw
      cases s₂ <;> simp_all
  · intro hok
    refine BitVec.eq_of_getLsbD_eq fun i hi => ?_
    rw [getLsbD_intCast, getLsbD_intCast, getLsbD_intCast]
    by_cases hi₂ : i < w₂
    · simp [hi, hi₂]
    -- above the middle width, so both extensions are at work
    have h12 : w₁ ≤ w₂ := by omega
    rw [msb_intCast _ _ h12, if_neg hi₂, if_neg (by omega : ¬ i < w₁)]
    congr 1
    by_cases hmsb : x.msb = true
    · simp only [hmsb, Bool.and_true]
      by_cases hs : s₁ = s₂
      · subst hs
        split_ifs <;> simp
      · have hns : ¬ (w₁ = w₂ ∨ s₁ = true) := fun hw => hok ⟨by omega, hs, hw, hmsb⟩
        rw [not_or] at hns
        rw [if_neg hns.1, Bool.eq_false_iff.mpr hns.2, Bool.and_false]
    · simp [hmsb]

/-- **Canonicalization and the bits.**  When `canonicalize` rewrites
`cast(cast(x : T1 to T2) to T3)` over integer types, the result is the single
cast from `T1` to `T3`, and it gives the bits of the chain exactly when the
chain does not extend under two signs a value whose top bit is set. -/
theorem canonicalize_same_bits_iff {target : Option ℕ} {x v : Value} {t₁ t₂ t₃ : KGENDType}
    {one out : Bool} {w₁ w₂ w₃ : ℕ} (ht₁ : x.getResolvedDType = some t₁)
    (hi₁ : t₁.IsInteger) (hi₂ : t₂.IsInteger) (hi₃ : t₃.IsInteger)
    (hw₁ : t₁.widthOn target = some w₁) (hw₂ : t₂.widthOn target = some w₂)
    (hw₃ : t₃.widthOn target = some w₃)
    (h : canonicalize target (.cast (.cast x (some t₂) one) (some t₃) out) = .ok v)
    (bits : BitVec w₁) :
    v = .cast x (some t₃) out ∧
      (intCast t₂.isSInt w₃ (intCast t₁.isSInt w₂ bits) = intCast t₁.isSInt w₃ bits ↔
        ¬ (w₂ < w₃ ∧ t₁.isSInt ≠ t₂.isSInt ∧ (w₁ = w₂ ∨ t₁.isSInt = true) ∧ bits.msb = true)) := by
  obtain ⟨hv, hpos⟩ := canonicalize_ok ht₁ hi₁ hi₂ hi₃ hw₁ hw₂ hw₃ h
  exact ⟨hv, intCast_intCast_eq_iff bits (by omega)⟩

/-- Two extensions of one sign, `si8` to `si16` to `si32`. -/
theorem canonicalize_same_bits_iff_sext_sext :
    intCast true 32 (intCast true 16 (0xFF : BitVec 8)) = intCast true 32 (0xFF : BitVec 8) :=
  (@canonicalize_same_bits_iff none (.other (some (.int 3 true false)))
    (.cast (.other (some (.int 3 true false))) (some (.int 5 true false)) true)
    (.int 3 true false) (.int 4 true false) (.int 5 true false) true true 8 16 32
    rfl rfl rfl rfl rfl rfl rfl (by decide) 0xFF).2.mpr (by decide)

/-- `si8` to `ui16` to `ui32` is rewritten, and on `-1` the two sides differ:
`0x0000FFFF` against `0xFFFFFFFF`. -/
theorem canonicalize_sext_zext_differs :
    canonicalize none
        (.cast (.cast (.other (some (.int 3 true false))) (some (.int 4 false false)) true)
          (some (.int 5 false false)) true) =
      .ok (.cast (.other (some (.int 3 true false))) (some (.int 5 false false)) true) ∧
    intCast false 32 (intCast true 16 (0xFF : BitVec 8)) = 0x0000FFFF ∧
    intCast true 32 (0xFF : BitVec 8) = 0xFFFFFFFF := by
  decide

end PopCast
