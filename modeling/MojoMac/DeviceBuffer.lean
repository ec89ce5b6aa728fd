/-
Device buffers and their sub-buffers, with the sizes as the runtime computes them.

A buffer is a view of a root allocation: an offset and a byte size, both 64-bit words formed by
unchecked multiplications.  The requested length, element size and parent of a view are kept with
it, and every range of memory that a copy or a fill touches is logged.  No object of the platform
is as large as `2 ^ 63` bytes.

* `Devices`, `step` — the allocations and views, and the calls on them;
* `Sound` — sizes are true products, sub-buffers fit their parents, views lie inside their
  allocations, and every access stays inside the view it goes through;
* `Exact` — what a call must meet: the byte sizes it forms do not wrap around, and the host does
  not go through a pointer that is a device address;
* `always_sound_iff` — a run of calls is sound throughout exactly if its calls are exact.
-/
import MojoMac.Interleaving

open List
open Option (bind_eq_some_iff)

namespace DeviceBuffer

/-- What a buffer is: host memory, Metal storage that is shared with the host or private to the
device, or a bare device address without a Metal buffer. -/
inductive Kind
  | cpu
  | metalShared
  | metalPrivate
  | devicePointer
  deriving DecidableEq, Repr

/-- The buffer has a Metal buffer. -/
def Kind.isMetal : Kind → Bool
  | metalShared | metalPrivate => true
  | cpu | devicePointer => false

/-- The pointer of the buffer is a device address, which means nothing to the host. -/
def Kind.isDeviceAddress : Kind → Bool
  | metalPrivate | devicePointer => true
  | cpu | metalShared => false

structure Root where
  kind : Kind
  size : ℕ
  deriving DecidableEq, Repr

/-- A buffer: a range of bytes of a root, and what was asked for. -/
structure View where
  kind : Kind
  root : ℕ
  offset : UInt64
  bytes : UInt64
  len : UInt64
  elemSize : UInt64
  /-- For a sub-buffer, its parent and its offset in elements. -/
  parent : Option (ℕ × UInt64)
  deriving DecidableEq, Repr

/-- Memory that a copy or a fill touches: bytes of a root, or whatever is at the host address that
equals a device address. -/
inductive Touch
  | bytes (root lo len : ℕ)
  | deviceAddress
  deriving DecidableEq, Repr

structure Devices where
  roots : List Root
  views : List View
  /-- What was touched, with the view it was reached through. -/
  touched : List (ℕ × Touch)
  deriving DecidableEq, Repr

def init : Devices := ⟨[], [], []⟩

inductive Call
  /-- `createBuffer_async` or `createHostBuffer`; the allocator may refuse. -/
  | createBuffer (kind : Kind) (len elemSize : UInt64) (granted : Bool)
  /-- A buffer over an object of the caller, given by a host pointer or, on a Metal context, by a
  device address. -/
  | createBufferOwning (onDevice : Bool) (size : ℕ) (len elemSize : UInt64)
  | createSubBuffer (buf : ℕ) (offset len elemSize : UInt64)
  | copyHtoD (dst : ℕ)
  | copyDtoH (src : ℕ)
  | copyDtoD (dst src : ℕ)
  /-- The first turns of a fill with a value of the given size. -/
  | setMemory (dst : ℕ) (valSize : UInt64) (turns : ℕ)
  deriving DecidableEq, Repr

/-- Sizes that an allocation or another object can have. -/
def maxObject : ℕ := 2 ^ 63

/-- What is allocated for a buffer: an empty one gets a byte, so that its pointer is not null. -/
def allocBytes (bytes : UInt64) : UInt64 := if bytes ≠ 0 then bytes else 1

/-- A range of the view. -/
def View.touch (v : View) (off len : UInt64) : Touch :=
  .bytes v.root (v.offset + off).toNat len.toNat

/-- What the host touches through the pointer of a buffer. -/
def View.touchPtr (v : View) (off len : UInt64) : Touch :=
  if v.kind.isDeviceAddress then .deviceAddress else v.touch off len

/-- What `HtoD_async` and `DtoH_async` touch in the buffer. -/
def copyTouches (i : ℕ) (v : View) : List (ℕ × Touch) :=
  if v.bytes = 0 then []
  else if v.kind.isMetal then [(i, v.touch 0 v.bytes)]
  else [(i, v.touchPtr 0 v.bytes)]

/-- What `DtoD_async` touches in the two buffers. -/
def copyDtoDTouches (i : ℕ) (dst : View) (j : ℕ) (src : View) : List (ℕ × Touch) :=
  let n := if dst.bytes < src.bytes then dst.bytes else src.bytes
  if n = 0 then []
  else if dst.kind.isMetal ∧ src.kind.isMetal then [(i, dst.touch 0 n), (j, src.touch 0 n)]
  else [(i, dst.touchPtr 0 n), (j, src.touchPtr 0 n)]

/-- The loop of `setMemory_async` on host memory, for a number of turns. -/
def fillLoop (v : View) (valSize : UInt64) : ℕ → UInt64 → List Touch
  | 0, _ => []
  | turns + 1, off =>
    if off + valSize ≤ v.bytes then
      v.touchPtr off valSize :: fillLoop v valSize turns (off + valSize)
    else []

/-- The sizes of values that `setMemory_async` fills host memory with by a loop. -/
def looping (valSize : UInt64) : Bool := valSize = 2 ∨ valSize = 4 ∨ valSize = 8

def fillTouches (v : View) (valSize : UInt64) (turns : ℕ) : List Touch :=
  if v.kind.isMetal then if v.bytes = 0 then [] else [v.touch 0 v.bytes]
  else if valSize = 1 then if v.bytes = 0 then [] else [v.touchPtr 0 v.bytes]
  else if looping valSize then fillLoop v valSize turns 0
  else []

/-- The sub-buffer of the buffer with number `i`. -/
def subView (i : ℕ) (buf : View) (offset len elemSize : UInt64) : View :=
  let offBytes := offset * elemSize
  let bytes := len * elemSize
  ⟨buf.kind, buf.root, buf.offset + offBytes, bytes, len, elemSize, some (i, offset)⟩

def step (s : Devices) : Call → Option Devices
  | .createBuffer kind len elemSize granted =>
    let bytes := len * elemSize
    if !granted then some s
    else if (allocBytes bytes).toNat < maxObject then
      some { s with
        roots := s.roots ++ [⟨kind, (allocBytes bytes).toNat⟩]
        views := s.views ++ [⟨kind, s.roots.length, 0, bytes, len, elemSize, none⟩] }
    else none
  | .createBufferOwning onDevice size len elemSize =>
    let kind := if onDevice then .devicePointer else .cpu
    if size < maxObject then
      some { s with
        roots := s.roots ++ [⟨kind, size⟩]
        views := s.views ++ [⟨kind, s.roots.length, 0, len * elemSize, len, elemSize, none⟩] }
    else none
  | .createSubBuffer i offset len elemSize => do
    let buf ← s.views[i]?
    if offset * elemSize + len * elemSize > buf.bytes then some s
    else some { s with views := s.views ++ [subView i buf offset len elemSize] }
  | .copyHtoD i | .copyDtoH i => do
    let v ← s.views[i]?
    some { s with touched := s.touched ++ copyTouches i v }
  | .copyDtoD i j => do
    let dst ← s.views[i]?
    let src ← s.views[j]?
    some { s with touched := s.touched ++ copyDtoDTouches i dst j src }
  | .setMemory i valSize turns => do
    let v ← s.views[i]?
    some { s with touched := s.touched ++ (fillTouches v valSize turns).map (i, ·) }

/-! ### What is promised -/

/-- The range lies in the view that it was reached through. -/
def Within (views : List View) (i : ℕ) : Touch → Prop
  | .bytes root lo len => ∃ v ∈ views[i]?, root = v.root ∧ v.offset.toNat ≤ lo ∧
      lo + len ≤ v.offset.toNat + v.bytes.toNat
  | .deviceAddress => False

/-- A view has the size that was asked for, fits its parent, and lies inside its root. -/
structure Fits (roots : List Root) (views : List View) (v : View) : Prop where
  product : v.bytes.toNat = v.len.toNat * v.elemSize.toNat
  parent : ∀ q ∈ v.parent, ∃ p ∈ views[q.1]?,
    (q.2.toNat + v.len.toNat) * v.elemSize.toNat ≤ p.bytes.toNat
  inside : ∃ r ∈ roots[v.root]?, v.offset.toNat + v.bytes.toNat ≤ r.size

structure Sound (s : Devices) : Prop where
  fits : ∀ v ∈ s.views, Fits s.roots s.views v
  touches : ∀ a ∈ s.touched, Within s.views a.1 a.2

/-- What a call has to meet, in terms of its arguments and of the buffers it is given. -/
def Exact (s : Devices) : Call → Prop
  | .createBuffer _ len elemSize granted => granted = true → len.toNat * elemSize.toNat < 2 ^ 64
  | .createBufferOwning _ size len elemSize => len.toNat * elemSize.toNat ≤ size
  | .createSubBuffer i offset len elemSize => ∀ buf ∈ s.views[i]?,
      offset * elemSize + len * elemSize ≤ buf.bytes →
        (offset.toNat + len.toNat) * elemSize.toNat < 2 ^ 64
  | .copyHtoD i | .copyDtoH i => ∀ v ∈ s.views[i]?, v.kind = .devicePointer → v.bytes = 0
  | .copyDtoD i j => ∀ dst ∈ s.views[i]?, ∀ src ∈ s.views[j]?,
      (dst.kind.isMetal ∧ src.kind.isMetal) ∨
      (dst.kind.isDeviceAddress = false ∧ src.kind.isDeviceAddress = false) ∨
      dst.bytes = 0 ∨ src.bytes = 0
  | .setMemory i valSize turns => ∀ v ∈ s.views[i]?, v.kind = .devicePointer →
      v.bytes < valSize ∨ (valSize ≠ 1 ∧ (looping valSize = false ∨ turns = 0))

variable {s t : Devices}

/-! ### More views, more touches -/

theorem Within.append {views more : List View} {i : ℕ} {touch : Touch} (h : Within views i touch) :
    Within (views ++ more) i touch := by
  cases touch with
  | bytes root lo len =>
    obtain ⟨v, hv, hin⟩ := h
    exact ⟨v, getElem?_append_left (List.getElem_of_getElem? hv).fst |>.trans hv, hin⟩
  | deviceAddress => exact h

theorem Fits.append {roots more : List Root} {views more' : List View} {v : View}
    (h : Fits roots views v) : Fits (roots ++ more) (views ++ more') v where
  product := h.product
  parent q hq := by
    obtain ⟨p, hp, hle⟩ := h.parent q hq
    exact ⟨p, getElem?_append_left (List.getElem_of_getElem? hp).fst |>.trans hp, hle⟩
  inside := by
    obtain ⟨r, hr, hle⟩ := h.inside
    exact ⟨r, getElem?_append_left (List.getElem_of_getElem? hr).fst |>.trans hr, hle⟩

/-- A sound state stays sound with another view exactly if that view fits. -/
theorem sound_add_iff (hs : Sound s) (more : List Root) (v : View) :
    Sound { s with roots := s.roots ++ more, views := s.views ++ [v] } ↔
      Fits (s.roots ++ more) (s.views ++ [v]) v := by
  constructor
  · intro h
    exact h.fits v (mem_append_right _ (mem_singleton_self v))
  · intro h
    refine ⟨fun w hw => ?_, fun a ha => (hs.touches a ha).append⟩
    rcases mem_append.mp hw with hw | hw
    · exact (hs.fits w hw).append
    · exact mem_singleton.mp hw ▸ h

/-- A sound state stays sound with more accesses exactly if they stay inside their views. -/
theorem sound_touch_iff (hs : Sound s) (more : List (ℕ × Touch)) :
    Sound { s with touched := s.touched ++ more } ↔ ∀ a ∈ more, Within s.views a.1 a.2 := by
  constructor
  · intro h a ha
    exact h.touches a (mem_append_right _ ha)
  · intro h
    refine ⟨hs.fits, fun a ha => ?_⟩
    exact (mem_append.mp ha).elim (hs.touches a) (h a)

/-- Every root is an object of the platform. -/
def Bounded (s : Devices) : Prop := ∀ r ∈ s.roots, r.size < maxObject

theorem Bounded.step {c : Call} (hs : Bounded s) (h : t ∈ step s c) : Bounded t := by
  have hadd : ∀ {kind size}, size < maxObject → ∀ r ∈ s.roots ++ [⟨kind, size⟩],
      r.size < maxObject := by
    intro kind size hsize r hr
    rcases mem_append.mp hr with hr | hr
    · exact hs r hr
    · exact mem_singleton.mp hr ▸ hsize
  cases c with
  | createBuffer kind len elemSize granted =>
    rw [DeviceBuffer.step] at h
    split at h
    · exact Option.some.inj h ▸ hs
    · split at h
      · next hsize => exact Option.some.inj h ▸ hadd hsize
      · cases h
  | createBufferOwning onDevice size len elemSize =>
    rw [DeviceBuffer.step] at h
    split at h
    · next hsize => exact Option.some.inj h ▸ hadd hsize
    · cases h
  | createSubBuffer i offset len elemSize =>
    obtain ⟨buf, -, h⟩ := bind_eq_some_iff.mp h
    split at h <;> exact Option.some.inj h ▸ hs
  | copyHtoD i | copyDtoH i =>
    obtain ⟨v, -, h⟩ := bind_eq_some_iff.mp h
    exact Option.some.inj h ▸ hs
  | copyDtoD i j =>
    obtain ⟨dst, -, h⟩ := bind_eq_some_iff.mp h
    obtain ⟨src, -, h⟩ := bind_eq_some_iff.mp h
    exact Option.some.inj h ▸ hs
  | setMemory i valSize turns =>
    obtain ⟨v, -, h⟩ := bind_eq_some_iff.mp h
    exact Option.some.inj h ▸ hs

/-! ### Creating buffers -/

theorem toNat_mul_eq_iff {a b : UInt64} :
    (a * b).toNat = a.toNat * b.toNat ↔ a.toNat * b.toNat < 2 ^ 64 := by
  rw [UInt64.toNat_mul]
  constructor
  · intro h
    rw [← h]
    exact Nat.mod_lt _ (by norm_num)
  · exact Nat.mod_eq_of_lt

theorem le_allocBytes (bytes : UInt64) : bytes.toNat ≤ (allocBytes bytes).toNat := by
  rw [allocBytes]
  split
  · exact le_rfl
  · next h =>
    rw [not_not.mp h]
    exact Nat.zero_le _

/-- A root buffer fits exactly if its size is the true product and not larger than the object. -/
theorem fits_root_iff {kind : Kind} {size : ℕ} {len elemSize : UInt64} :
    Fits (s.roots ++ [⟨kind, size⟩])
      (s.views ++ [⟨kind, s.roots.length, 0, len * elemSize, len, elemSize, none⟩])
      ⟨kind, s.roots.length, 0, len * elemSize, len, elemSize, none⟩ ↔
    len.toNat * elemSize.toNat < 2 ^ 64 ∧ (len * elemSize).toNat ≤ size := by
  constructor
  · rintro ⟨hproduct, -, r, hr, hle⟩
    obtain rfl : ⟨kind, size⟩ = r := by simpa using hr
    exact ⟨toNat_mul_eq_iff.mp hproduct, by simpa using hle⟩
  · rintro ⟨hproduct, hle⟩
    exact ⟨toNat_mul_eq_iff.mpr hproduct, nofun, ⟨kind, size⟩, by simp, by simpa using hle⟩

/-- Where the wrapped comparison lets a sub-buffer pass, it fits exactly if nothing wrapped. -/
theorem fits_sub_iff (hb : Bounded s) {i : ℕ} {buf : View} {offset len elemSize : UInt64}
    (hbuf : s.views[i]? = some buf) (hfits : Fits s.roots s.views buf)
    (hpass : offset * elemSize + len * elemSize ≤ buf.bytes) :
    Fits (s.roots ++ []) (s.views ++ [subView i buf offset len elemSize])
      (subView i buf offset len elemSize) ↔
    (offset.toNat + len.toNat) * elemSize.toNat < 2 ^ 64 := by
  have hi : i < s.views.length := (List.getElem_of_getElem? hbuf).fst
  obtain ⟨r, hr, hle⟩ := hfits.inside
  have hsize := hb r (mem_of_getElem? hr)
  rw [maxObject] at hsize
  have hlt := buf.bytes.toNat_lt
  constructor
  · rintro ⟨-, hparent, -⟩
    obtain ⟨p, hp, hpbytes⟩ := hparent (i, offset) rfl
    rw [Option.mem_def, getElem?_append_left hi, hbuf] at hp
    obtain rfl := Option.some.inj hp
    exact hpbytes.trans_lt hlt
  · intro hexact
    rw [add_mul] at hexact
    have hoff : (offset * elemSize).toNat = offset.toNat * elemSize.toNat :=
      toNat_mul_eq_iff.mpr (by omega)
    have hlen : (len * elemSize).toNat = len.toNat * elemSize.toNat :=
      toNat_mul_eq_iff.mpr (by omega)
    have hsum : offset.toNat * elemSize.toNat + len.toNat * elemSize.toNat ≤ buf.bytes.toNat := by
      have hle := UInt64.le_iff_toNat_le.mp hpass
      rwa [UInt64.toNat_add, hoff, hlen, Nat.mod_eq_of_lt hexact] at hle
    refine ⟨hlen, fun q hq => ?_, r, by simpa [subView] using hr, ?_⟩
    · obtain rfl := Option.some.inj hq
      refine ⟨buf, (getElem?_append_left hi).trans hbuf, ?_⟩
      rw [add_mul]
      exact hsum
    · dsimp only [subView]
      rw [UInt64.toNat_add, hoff, hlen, Nat.mod_eq_of_lt (by omega)]
      omega

/-! ### Copies and fills -/

theorem isDeviceAddress_iff {kind : Kind} (h : kind.isMetal = false) :
    kind.isDeviceAddress = false ↔ kind ≠ .devicePointer := by
  cases kind <;> simp_all [Kind.isMetal, Kind.isDeviceAddress]

section Touches

variable {i : ℕ} {v : View} (hb : Bounded s) (hv : s.views[i]? = some v)
  (hfits : Fits s.roots s.views v)

include hb hv hfits

/-- A part of a view that lies inside its root. -/
theorem within_touch {off len : UInt64} (hle : off.toNat + len.toNat ≤ v.bytes.toNat) :
    Within s.views i (v.touch off len) := by
  obtain ⟨r, hr, hin⟩ := hfits.inside
  have hsize := hb r (mem_of_getElem? hr)
  rw [maxObject] at hsize
  have hadd : (v.offset + off).toNat = v.offset.toNat + off.toNat := by
    rw [UInt64.toNat_add]
    exact Nat.mod_eq_of_lt (by omega)
  exact ⟨v, hv, rfl, by omega, by omega⟩

/-- The host reaches a part of a view through its pointer unless that is a device address. -/
theorem within_touchPtr_iff {off len : UInt64} (hle : off.toNat + len.toNat ≤ v.bytes.toNat) :
    Within s.views i (v.touchPtr off len) ↔ v.kind.isDeviceAddress = false := by
  rw [View.touchPtr]
  split
  · next h => simp [Within, h]
  · next h => exact iff_of_true (within_touch hb hv hfits hle) (by simpa using h)

theorem copyTouches_within_iff :
    (∀ a ∈ copyTouches i v, Within s.views a.1 a.2) ↔ (v.kind = .devicePointer → v.bytes = 0) := by
  rw [copyTouches]
  split
  · next hzero => exact iff_of_true nofun fun _ => hzero
  next hzero =>
  split
  · next hmetal =>
    refine iff_of_true ?_ fun h => ?_
    · simpa using within_touch hb hv hfits (by simp)
    · rw [h] at hmetal
      cases hmetal
  · next hmetal =>
    rw [forall_mem_singleton, within_touchPtr_iff hb hv hfits (by simp),
      isDeviceAddress_iff (by simpa using hmetal)]
    exact ⟨fun h h' => absurd h' h, fun h h' => hzero (h h')⟩

/-- The turns of the fill loop from an offset on, in a view that is smaller than the words. -/
theorem fillLoop_within_iff {valSize : UInt64} (hpos : 0 < valSize.toNat)
    (hsmall : valSize.toNat ≤ 8) (turns : ℕ) (off : UInt64) (hoff : off.toNat ≤ v.bytes.toNat) :
    (∀ touch ∈ fillLoop v valSize turns off, Within s.views i touch) ↔
      (v.kind.isDeviceAddress = true → turns = 0 ∨ v.bytes.toNat < off.toNat + valSize.toNat) := by
  obtain ⟨r, hr, hin⟩ := hfits.inside
  have hsize := hb r (mem_of_getElem? hr)
  rw [maxObject] at hsize
  have hadd : (off + valSize).toNat = off.toNat + valSize.toNat := by
    rw [UInt64.toNat_add]
    exact Nat.mod_eq_of_lt (by omega)
  induction turns generalizing off with
  | zero => exact iff_of_true nofun fun _ => .inl rfl
  | succ turns ih =>
    rw [fillLoop]
    split
    · next hle =>
      have hle' : off.toNat + valSize.toNat ≤ v.bytes.toNat := hadd ▸ UInt64.le_iff_toNat_le.mp hle
      have hadd' : (off + valSize + valSize).toNat = (off + valSize).toNat + valSize.toNat := by
        rw [UInt64.toNat_add]
        exact Nat.mod_eq_of_lt (by omega)
      have hrest := ih (off + valSize) (by omega) hadd'
      rw [forall_mem_cons, within_touchPtr_iff hb hv hfits hle']
      constructor
      · rintro ⟨hfalse, -⟩ htrue
        rw [hfalse] at htrue
        cases htrue
      · intro h
        have hfalse : v.kind.isDeviceAddress = false := by
          cases haddr : v.kind.isDeviceAddress with
          | false => rfl
          | true =>
            have := h haddr
            omega
        exact ⟨hfalse, hrest.mpr fun htrue => by rw [hfalse] at htrue; cases htrue⟩
    · next hgt =>
      refine iff_of_true nofun fun _ => .inr ?_
      rw [← hadd]
      exact UInt64.lt_iff_toNat_lt.mp (UInt64.not_le.mp hgt)

theorem fillTouches_within_iff (valSize : UInt64) (turns : ℕ) :
    (∀ touch ∈ fillTouches v valSize turns, Within s.views i touch) ↔ (v.kind = .devicePointer →
        v.bytes < valSize ∨ (valSize ≠ 1 ∧ (looping valSize = false ∨ turns = 0))) := by
  rw [fillTouches]
  split
  · next hmetal =>
    refine iff_of_true ?_ fun h => ?_
    · split
      · exact nofun
      · simpa using within_touch hb hv hfits (by simp)
    · rw [h] at hmetal
      cases hmetal
  next hmetal =>
  have haddr : v.kind.isDeviceAddress = false ↔ v.kind ≠ .devicePointer :=
    isDeviceAddress_iff (by simpa using hmetal)
  split
  · next hone =>
    subst hone
    split
    · next hzero =>
      refine iff_of_true nofun fun _ => .inl ?_
      rw [hzero]
      decide
    next hzero =>
    have hge : ¬ v.bytes < 1 := by
      rw [UInt64.lt_iff_toNat_lt]
      rw [← UInt64.toNat_inj] at hzero
      have : (1 : UInt64).toNat = 1 := rfl
      have : (0 : UInt64).toNat = 0 := rfl
      omega
    rw [forall_mem_singleton, within_touchPtr_iff hb hv hfits (by simp), haddr]
    exact ⟨fun h h' => absurd h' h, fun h h' => (h h').elim hge fun h => h.1 rfl⟩
  · next hone =>
    split
    · next hloop =>
      have hval : 0 < valSize.toNat ∧ valSize.toNat ≤ 8 := by
        simp only [looping, decide_eq_true_eq] at hloop
        rcases hloop with rfl | rfl | rfl <;> decide
      have htrue : v.kind.isDeviceAddress = true ↔ v.kind = .devicePointer := by
        rw [← Bool.not_eq_false, haddr, not_not]
      have hlt : v.bytes.toNat < (0 : UInt64).toNat + valSize.toNat ↔ v.bytes < valSize := by
        rw [UInt64.lt_iff_toNat_lt, UInt64.toNat_zero, zero_add]
      rw [fillLoop_within_iff hb hv hfits hval.1 hval.2 turns 0 (Nat.zero_le _), htrue, hlt]
      refine imp_congr_right fun _ => ?_
      simp only [ne_eq, hone, hloop, not_false_eq_true, true_and, Bool.true_eq_false, false_or]
      exact or_comm
    · next hloop =>
      exact iff_of_true nofun fun _ => .inr ⟨hone, .inl (by simpa using hloop)⟩

end Touches

theorem copyDtoDTouches_within_iff (hb : Bounded s) {dst src : View} {i j : ℕ}
    (hdst : s.views[i]? = some dst) (hsrc : s.views[j]? = some src)
    (hfits : Fits s.roots s.views dst) (hfits' : Fits s.roots s.views src) :
    (∀ a ∈ copyDtoDTouches i dst j src, Within s.views a.1 a.2) ↔
      (dst.kind.isMetal ∧ src.kind.isMetal) ∨
      (dst.kind.isDeviceAddress = false ∧ src.kind.isDeviceAddress = false) ∨
      dst.bytes = 0 ∨ src.bytes = 0 := by
  rw [copyDtoDTouches]
  obtain ⟨n, hn⟩ : ∃ n, (if dst.bytes < src.bytes then dst.bytes else src.bytes) = n := ⟨_, rfl⟩
  have hle : n.toNat ≤ dst.bytes.toNat ∧ n.toNat ≤ src.bytes.toNat := by
    split at hn
    · next h => exact hn ▸ ⟨le_rfl, (UInt64.lt_iff_toNat_lt.mp h).le⟩
    · next h => exact hn ▸ ⟨UInt64.le_iff_toNat_le.mp (UInt64.not_lt.mp h), le_rfl⟩
  have hzero : n = 0 ↔ dst.bytes = 0 ∨ src.bytes = 0 := by
    simp only [← UInt64.toNat_inj, UInt64.toNat_zero]
    split at hn <;> subst hn <;> omega
  rw [hn]
  split
  · next h => exact iff_of_true nofun (.inr (.inr (hzero.mp h)))
  next h =>
  split
  · next hmetal =>
    refine iff_of_true ?_ (.inl hmetal)
    simpa using ⟨within_touch hb hdst hfits (by simpa using hle.1),
      within_touch hb hsrc hfits' (by simpa using hle.2)⟩
  · next hmetal =>
    rw [forall_mem_cons, forall_mem_singleton, within_touchPtr_iff hb hdst hfits (by simpa using
      hle.1), within_touchPtr_iff hb hsrc hfits' (by simpa using hle.2)]
    rw [hzero] at h
    exact ⟨fun hboth => .inr (.inl hboth), fun hor =>
      (hor.resolve_left hmetal).resolve_right h⟩

/-! ### Every run of calls -/

/-- A call on a sound state leads to a sound state exactly if it is exact. -/
theorem sound_step_iff {c : Call} (hb : Bounded s) (hs : Sound s) (h : t ∈ step s c) :
    Sound t ↔ Exact s c := by
  have hfits : ∀ {i : ℕ} {v : View}, s.views[i]? = some v → Fits s.roots s.views v := fun hv =>
    hs.fits _ (mem_of_getElem? hv)
  -- What the arguments of a call say about the buffer with a given number.
  have hforall : ∀ {i : ℕ} {v : View} {Q : View → Prop}, s.views[i]? = some v →
      ((∀ w ∈ s.views[i]?, Q w) ↔ Q v) := by
    intro i v Q hv
    simp [hv]
  cases c with
  | createBuffer kind len elemSize granted =>
    rw [step] at h
    split at h
    · next hrefused =>
      obtain rfl := Option.some.inj h
      refine iff_of_true hs fun hgranted => ?_
      rw [hgranted] at hrefused
      cases hrefused
    · next hgranted =>
      split at h
      · obtain rfl := Option.some.inj h
        rw [sound_add_iff hs, fits_root_iff, Exact]
        exact ⟨fun h _ => h.1, fun h => ⟨h (by simpa using hgranted), le_allocBytes _⟩⟩
      · cases h
  | createBufferOwning onDevice size len elemSize =>
    rw [step] at h
    split at h
    · next hsize =>
      obtain rfl := Option.some.inj h
      rw [sound_add_iff hs, fits_root_iff, Exact]
      rw [maxObject] at hsize
      constructor
      · rintro ⟨hproduct, hle⟩
        rwa [toNat_mul_eq_iff.mpr hproduct] at hle
      · intro hle
        have hproduct : len.toNat * elemSize.toNat < 2 ^ 64 := by omega
        exact ⟨hproduct, (toNat_mul_eq_iff.mpr hproduct).trans_le hle⟩
    · cases h
  | createSubBuffer i offset len elemSize =>
    obtain ⟨buf, hbuf, h⟩ := bind_eq_some_iff.mp h
    rw [Exact, hforall hbuf]
    split at h
    · next hreject =>
      obtain rfl := Option.some.inj h
      exact iff_of_true hs fun hpass => absurd hreject (UInt64.not_lt.mpr hpass)
    next hpass =>
    obtain rfl := Option.some.inj h
    have hle := UInt64.not_lt.mp hpass
    have hadd := sound_add_iff hs [] (subView i buf offset len elemSize)
    rw [fits_sub_iff hb hbuf (hfits hbuf) hle, append_nil] at hadd
    exact hadd.trans ⟨fun h _ => h, fun h => h hle⟩
  | copyHtoD i | copyDtoH i =>
    obtain ⟨v, hv, h⟩ := bind_eq_some_iff.mp h
    obtain rfl := Option.some.inj h
    rw [Exact, hforall hv, sound_touch_iff hs]
    exact copyTouches_within_iff hb hv (hfits hv)
  | copyDtoD i j =>
    obtain ⟨dst, hdst, h⟩ := bind_eq_some_iff.mp h
    obtain ⟨src, hsrc, h⟩ := bind_eq_some_iff.mp h
    obtain rfl := Option.some.inj h
    rw [Exact, hforall hdst, hforall hsrc, sound_touch_iff hs]
    exact copyDtoDTouches_within_iff hb hdst hsrc (hfits hdst) (hfits hsrc)
  | setMemory i valSize turns =>
    obtain ⟨v, hv, h⟩ := bind_eq_some_iff.mp h
    obtain rfl := Option.some.inj h
    rw [Exact, hforall hv, sound_touch_iff hs, forall_mem_map]
    exact fillTouches_within_iff hb hv (hfits hv) valSize turns

/-- **Buffers and views.**  Along every sequence of creations, sub-buffers, copies and fills, the
sizes are true products, sub-buffers fit their parents, views lie inside their allocations and
accesses inside their views, exactly if no byte size that passes a check wraps around and the host
never goes through a device address. -/
theorem always_sound_iff (calls : List Call) :
    Interleaving.Always step Sound init calls ↔ Interleaving.Along step Exact init calls := by
  refine Interleaving.always_iff_along (I := Bounded) ?_ ?_ nofun ⟨nofun, nofun⟩
  · intro s c t hb _ _ ht
    exact hb.step ht
  · intro s c t hb hs ht
    exact sound_step_iff hb hs ht

/-- A buffer of two 8-byte elements has a sub-buffer of one element at the offset `2 ^ 61 - 1`: the
check sees `2 ^ 64 - 8 + 8 = 0` bytes, the view starts 8 bytes before the allocation, and a copy to
it touches these bytes. -/
theorem subBuffer_before_allocation :
    ∃ s ∈ Interleaving.run step init
      [.createBuffer .cpu 2 8 true, .createSubBuffer 0 (2 ^ 61 - 1) 1 8, .copyHtoD 1],
      s.roots = [⟨.cpu, 16⟩] ∧ s.touched = [(1, .bytes 0 (2 ^ 64 - 8) 8)] := by
  decide +kernel

end DeviceBuffer
