import DpdkFilter.PagePacking
import Mathlib.Data.Nat.GCD.Basic
import Mathlib.Data.Nat.ModEq
import Mathlib.Data.Nat.Prime.Basic
import Mathlib.Tactic.NormNum.Prime

/-!
# Where the objects of a mempool lie

The size of an object with its header and padding, the memory that is asked for a number of
them, and their placement in what is got: no object in two pages, since pages that follow each
other in virtual memory need not do so in IO memory. The sizes of an object have 32 bits, and
the size of memory 64.
-/

namespace MempoolLayout

def rteMempoolAlign : Nat := 64

/-- `RTE_ALIGN_CEIL`, `RTE_PTR_ALIGN_CEIL` and `RTE_PTR_ALIGN` for a power of two. -/
def rteAlignCeil (val align : Nat) : Nat := (val + (align - 1)) / align * align

/-! ## The size of an object -/

/-- The loop of `get_gcd`. -/
def gcdLoop (a b : Nat) : Nat :=
  if b = 0 then a else gcdLoop b (a % b)
termination_by b
decreasing_by
  rename_i h
  exact Nat.mod_lt a (Nat.pos_of_ne_zero h)

def getGcd (a b : Nat) : Nat :=
  if a = 0 then b
  else if b = 0 then a
  else if a < b then gcdLoop b a
  else gcdLoop a b

/-- The loop of `arch_mem_object_align`. -/
def spreadLoop (slots : Nat) : Nat → Nat → Nat
  | 0, newObjSize => newObjSize
  | fuel + 1, newObjSize =>
    if getGcd newObjSize slots ≠ 1 then spreadLoop slots fuel ((newObjSize + 1) % 2 ^ 32)
    else newObjSize

/-- The channels times the ranks of the memory, with the defaults for what is not known. -/
def memorySlots (nchannel nrank : Nat) : Nat :=
  (if nrank = 0 then 1 else nrank) * (if nchannel = 0 then 4 else nchannel) % 2 ^ 32

/-- The loop has seen every size after `2 ^ 32` rounds. -/
def archMemObjectAlign (slots objSize : Nat) : Nat :=
  spreadLoop slots (2 ^ 32) ((objSize + (rteMempoolAlign - 1)) % 2 ^ 32 / rteMempoolAlign) *
    rteMempoolAlign % 2 ^ 32

structure ObjSize where
  headerSize : Nat
  eltSize : Nat
  trailerSize : Nat
deriving DecidableEq

/-- The sum of the sizes, which the source computes with 32 bits. -/
def ObjSize.total (sz : ObjSize) : Nat := sz.headerSize + sz.eltSize + sz.trailerSize

/-- `rte_mempool_calc_obj_size` without the debug cookies; a `struct rte_mempool_objhdr` has
24 bytes. -/
def rteMempoolCalcObjSize (slots eltSize : Nat) (noCacheAlign noSpread : Bool) : ObjSize :=
  let header := if noCacheAlign then 24 else rteAlignCeil 24 rteMempoolAlign
  let elt := (eltSize + 7) % 2 ^ 32 / 8 * 8
  let trailer := if noCacheAlign then 0 else
    (rteMempoolAlign - (header + elt) % 2 ^ 32 % rteMempoolAlign) % rteMempoolAlign
  let trailer := if noSpread then trailer else
    (archMemObjectAlign slots ((header + elt + trailer) % 2 ^ 32) + 2 ^ 33 - header - elt) % 2 ^ 32
  ⟨header, elt, trailer⟩

/-! ## The memory asked for -/

/-- `rte_mempool_op_calc_mem_size_helper`, for one object or more. -/
def rteMempoolOpCalcMemSizeHelper (totalEltSz objNum pgShift chunkReserve : Nat) : Option Nat :=
  if totalEltSz = 0 then some 0
  else if pgShift = 0 then some (totalEltSz * objNum + chunkReserve)
  else
    let pgSz := 2 ^ pgShift
    if chunkReserve ≥ pgSz then none
    else
      let objPerPage := (pgSz - chunkReserve) / totalEltSz
      if objPerPage = 0 then some (rteAlignCeil (totalEltSz + chunkReserve) pgSz * objNum)
      else
        let objsInLastPage := (objNum - 1) % objPerPage + 1
        some (objsInLastPage * totalEltSz + chunkReserve +
          (objNum - objsInLastPage) / objPerPage * 2 ^ pgShift + (totalEltSz - 1))

def rteMempoolOpCalcMemSizeDefault (totalEltSz objNum pgShift : Nat) : Option Nat :=
  rteMempoolOpCalcMemSizeHelper totalEltSz objNum pgShift 0

/-! ## The placement -/

/-- Whether the check of the source finds that the object crosses a page boundary. -/
def checkObjBounds (obj pgSz eltSz : Nat) : Bool :=
  if pgSz = 0 then false
  else if eltSz > pgSz then false
  else rteAlignCeil obj pgSz ≠ rteAlignCeil (obj + eltSz - 1) pgSz

/-- An object with the IO address that its header is given, if there is one. -/
structure Obj where
  addr : Nat
  iova : Option Nat
deriving DecidableEq

/-- The offset of the next object, as the loop of the helper moves it. -/
def nextOff (pgSz totalEltSz : Nat) (alignObj : Bool) (va off : Nat) : Nat :=
  if checkObjBounds (va + off) pgSz totalEltSz then
    let off := off + (rteAlignCeil (va + off) pgSz - (va + off))
    if alignObj then off + (totalEltSz - ((va + off - 1) % totalEltSz + 1)) else off
  else off

def populateLoop (sz : ObjSize) (pgSz : Nat) (alignObj : Bool) (va : Nat) (iova : Option Nat)
    (len : Nat) : Nat → Nat → List Obj
  | 0, _ => []
  | n + 1, off =>
    let off := nextOff pgSz sz.total alignObj va off
    if off + sz.total > len then []
    else ⟨va + (off + sz.headerSize), iova.map (· + (off + sz.headerSize))⟩ ::
      populateLoop sz pgSz alignObj va iova len n
        (off + sz.headerSize + (sz.eltSize + sz.trailerSize))

def rteMempoolOpPopulateHelper (sz : ObjSize) (pgSz : Nat) (alignObj : Bool) (maxObjs va : Nat)
    (iova : Option Nat) (len : Nat) : List Obj :=
  populateLoop sz pgSz alignObj va iova len maxObjs
    (if alignObj then sz.total - ((va - 1) % sz.total + 1) else 0)

/-- What a mempool has for its placement. Its sizes add up without wrapping to a multiple of
eight, and its pages are multiples of the alignment of objects. -/
structure Placement where
  sz : ObjSize
  minPgShift : Nat
  noCacheAlign : Bool
  noIovaContig : Bool
  positive : 0 < sz.total
  whole : sz.total < 2 ^ 32
  aligned : 8 ∣ sz.total
  pages : 6 ≤ minPgShift

/-- `rte_mempool_get_page_size`, from the smallest pages of the memory. -/
def Placement.pgSz (mp : Placement) : Nat := if mp.noIovaContig then 0 else 2 ^ mp.minPgShift

def Placement.pgShift (mp : Placement) : Nat := if mp.noIovaContig then 0 else mp.minPgShift

def Placement.align (mp : Placement) : Nat := if mp.noCacheAlign then 8 else rteMempoolAlign

/-- `rte_mempool_populate_iova` for `maxObjs` objects to come; the chunk header is allocated. -/
def rteMempoolPopulateIova (mp : Placement) (maxObjs vaddr : Nat) (iova : Option Nat)
    (len : Nat) : List Obj :=
  let off := rteAlignCeil vaddr mp.align - vaddr
  if off > len then []
  else rteMempoolOpPopulateHelper mp.sz mp.pgSz false maxObjs (vaddr + off) (iova.map (· + off))
    (len - off)

/-- Add pages while their IO addresses go on. -/
def physLenLoop (getIova : Nat → Option Nat) (pgSz addr len : Nat) : Nat → Nat → Nat
  | 0, physLen => physLen
  | fuel + 1, physLen =>
    if physLen < len then
      match getIova addr, getIova (addr + physLen) with
      | some iova, some iovaTmp =>
        if iovaTmp = iova + physLen then
          physLenLoop getIova pgSz addr len fuel (min (physLen + pgSz) len)
        else physLen
      | _, _ => physLen
    else physLen

/-- The largest group of contiguous pages at `addr`, of `len` bytes at most. -/
def physLenOf (getIova : Nat → Option Nat) (pgSz addr len : Nat) : Nat :=
  physLenLoop getIova pgSz addr len len (min (rteAlignCeil (addr + 1) pgSz - addr) len)

/-- The loop of `rte_mempool_populate_virt`; a group takes at least a byte. -/
def populateVirtLoop (mp : Placement) (getIova : Nat → Option Nat) :
    Nat → Nat → Nat → Nat → List Obj
  | 0, _, _, _ => []
  | fuel + 1, maxObjs, addr, len =>
    if 0 < len ∧ 0 < maxObjs then
      let physLen := physLenOf getIova mp.pgSz addr len
      let objs := rteMempoolPopulateIova mp maxObjs addr (getIova addr) physLen
      objs ++ populateVirtLoop mp getIova fuel (maxObjs - objs.length) (addr + physLen)
        (len - physLen)
    else []

def rteMempoolPopulateVirt (mp : Placement) (getIova : Nat → Option Nat)
    (maxObjs addr len : Nat) : List Obj :=
  if mp.noIovaContig then rteMempoolPopulateIova mp maxObjs addr none len
  else populateVirtLoop mp getIova len maxObjs addr len

/-! ## The whole mempool -/

structure Zone where
  addr : Nat
  len : Nat
  iova : Option Nat
deriving DecidableEq

/-- What `rte_memzone_reserve_aligned` returns: a zone, or no zone for lack of memory or for
another reason. -/
inductive Reserved where
  | zone (mz : Zone)
  | noMem
  | failed

/-- Try with half of the memory while there is none. -/
def reserveLoop (reserve : Nat → Reserved) (memSize minChunkSize : Nat) :
    Nat → Nat → Reserved × Nat
  | 0, maxAllocSize => (.noMem, maxAllocSize)
  | fuel + 1, maxAllocSize =>
    match reserve (min memSize maxAllocSize) with
    | .noMem =>
      let half := min maxAllocSize memSize / 2
      if half ≥ minChunkSize then reserveLoop reserve memSize minChunkSize fuel half
      else (.noMem, half)
    | r => (r, maxAllocSize)

/-- The objects that go into a zone: it is contiguous, or its pages are looked at. -/
def populateZone (mp : Placement) (getIova : Nat → Option Nat) (n : Nat) (mz : Zone)
    (contig : Bool) : List Obj :=
  if mp.pgSz = 0 ∨ contig = true then
    rteMempoolPopulateIova mp n mz.addr (if mp.noIovaContig then none else mz.iova) mz.len
  else rteMempoolPopulateVirt mp getIova n mz.addr mz.len

/-- `rte_mempool_populate_default` for the `n` objects to come, zone after zone. `reserve` has
the number of the zone, whether it must be contiguous, and the size. -/
def populateDefaultLoop (mp : Placement) (getIova : Nat → Option Nat)
    (reserve : Nat → Bool → Nat → Reserved) :
    Nat → Nat → Nat → Nat → Bool → Option (List (Zone × List Obj))
  | 0, _, n, _, _ => if n = 0 then some [] else none
  | fuel + 1, mzId, n, maxAllocSize, contig =>
    if n = 0 then some []
    else
      match rteMempoolOpCalcMemSizeDefault mp.sz.total n mp.pgShift with
      | none => none
      | some memSize =>
        let contig := contig || memSize = mp.sz.total
        match reserveLoop (reserve mzId contig) memSize mp.sz.total (memSize + 1) maxAllocSize with
        | (.zone mz, maxAllocSize) =>
          let objs := populateZone mp getIova n mz contig
          if objs = [] then none
          else (populateDefaultLoop mp getIova reserve fuel (mzId + 1) (n - objs.length)
            maxAllocSize contig).map ((mz, objs) :: ·)
        | _ => none

/-- The chunks of the mempool with their objects, or none where all is freed again. -/
def rteMempoolPopulateDefault (mp : Placement) (getIova : Nat → Option Nat)
    (reserve : Nat → Bool → Nat → Reserved) (size : Nat) : Option (List (Zone × List Obj)) :=
  populateDefaultLoop mp getIova reserve size 0 size (2 ^ 64 - 1) false

/-! ## The size suits caches and channels -/

theorem gcdLoop_eq (a b : Nat) : gcdLoop a b = Nat.gcd a b := by
  induction b using Nat.strongRecOn generalizing a with
  | ind b ih =>
    rw [gcdLoop]
    split
    · rename_i h
      rw [h, Nat.gcd_zero_right]
    · rename_i h
      rw [ih (a % b) (Nat.mod_lt a (Nat.pos_of_ne_zero h)), Nat.gcd_comm a b, Nat.gcd_rec b a,
        Nat.gcd_comm]

theorem getGcd_eq (a b : Nat) : getGcd a b = Nat.gcd a b := by
  unfold getGcd
  split
  · rename_i h
    rw [h, Nat.gcd_zero_left]
  split
  · rename_i h
    rw [h, Nat.gcd_zero_right]
  split
  · rw [gcdLoop_eq, Nat.gcd_comm]
  · exact gcdLoop_eq a b

/-- The loop ends, with a size that is coprime to the slots, before it has come past one. -/
theorem spreadLoop_spec {slots fuel size p : Nat} (ahead : size ≤ p) (ends : p < size + fuel)
    (small : p < 2 ^ 32) (coprime : Nat.Coprime p slots) :
    size ≤ spreadLoop slots fuel size ∧ spreadLoop slots fuel size ≤ p ∧
      Nat.Coprime (spreadLoop slots fuel size) slots := by
  induction fuel generalizing size with
  | zero => omega
  | succ fuel ih =>
    rw [spreadLoop, getGcd_eq]
    split
    · rename_i shared
      have later : size ≠ p := by
        rintro rfl
        exact shared coprime
      rw [Nat.mod_eq_of_lt (by omega)]
      have next : size + 1 ≤ p := by omega
      obtain ⟨larger, near, found⟩ := ih next (by omega)
      exact ⟨by omega, near, found⟩
    · rename_i coprime
      exact ⟨Nat.le_refl size, ahead, not_not.mp coprime⟩

/-- One of the two largest primes below `2 ^ 26` does not divide a 32-bit number. -/
theorem exists_coprime {slots : Nat} (positive : 0 < slots) (small : slots < 2 ^ 32) :
    ∃ p, 67108837 ≤ p ∧ p < 2 ^ 26 ∧ Nat.Coprime p slots := by
  have first : Nat.Prime 67108837 := by norm_num
  have second : Nat.Prime 67108859 := by norm_num
  by_cases divides : 67108837 ∣ slots
  · refine ⟨67108859, by decide, by decide, second.coprime_iff_not_dvd.mpr fun both => ?_⟩
    have apart := (Nat.coprime_primes first second).mpr (by decide)
    have product := Nat.le_of_dvd positive (apart.mul_dvd_of_dvd_of_dvd divides both)
    omega
  · exact ⟨67108837, Nat.le_refl _, by decide, first.coprime_iff_not_dvd.mpr divides⟩

theorem memorySlots_lt (nchannel nrank : Nat) : memorySlots nchannel nrank < 2 ^ 32 :=
  Nat.mod_lt _ (by decide)

/-- An object that leaves some room below `2 ^ 32` gets a size below it. -/
theorem archMemObjectAlign_spec {slots : Nat} (positive : 0 < slots) (few : slots < 2 ^ 32)
    {objSize : Nat} (small : objSize ≤ 67108837 * 64) :
    objSize ≤ archMemObjectAlign slots objSize ∧ archMemObjectAlign slots objSize < 2 ^ 32 ∧
      ∃ units, archMemObjectAlign slots objSize = units * 64 ∧ Nat.Coprime units slots := by
  obtain ⟨p, large, below, coprime⟩ := exists_coprime positive few
  have start : (objSize + (rteMempoolAlign - 1)) % 2 ^ 32 / rteMempoolAlign ≤ p := by
    rw [rteMempoolAlign]
    omega
  have reached : p < (objSize + (rteMempoolAlign - 1)) % 2 ^ 32 / rteMempoolAlign + 2 ^ 32 :=
    Nat.lt_of_lt_of_le (show p < 2 ^ 32 by omega) (Nat.le_add_left ..)
  obtain ⟨larger, near, found⟩ := spreadLoop_spec start reached (by omega) coprime
  unfold archMemObjectAlign
  generalize spreadLoop slots (2 ^ 32) _ = units at larger near found ⊢
  simp only [rteMempoolAlign] at larger near ⊢
  have whole : units * 64 % 2 ^ 32 = units * 64 := Nat.mod_eq_of_lt (by omega)
  exact ⟨by omega, by omega, units, whole, found⟩

/-- With padding for the channels, the total is what the alignment for them gives. -/
theorem calcObjSize_spread {slots eltSize : Nat} (positive : 0 < slots) (few : slots < 2 ^ 32)
    (small : eltSize + 2048 ≤ 2 ^ 32) (noCacheAlign : Bool) :
    (rteMempoolCalcObjSize slots eltSize noCacheAlign false).total < 2 ^ 32 ∧
      ∃ units, (rteMempoolCalcObjSize slots eltSize noCacheAlign false).total = units * 64 ∧
        Nat.Coprime units slots := by
  simp only [rteMempoolCalcObjSize, ObjSize.total, Bool.false_eq_true, if_false]
  generalize header : (if noCacheAlign = true then 24 else rteAlignCeil 24 rteMempoolAlign) = h
  have headerSmall : h ≤ 64 := by
    rw [← header]
    split <;> decide
  generalize elt : (eltSize + 7) % 2 ^ 32 / 8 * 8 = e
  generalize trailer : (if noCacheAlign = true then 0
    else (rteMempoolAlign - (h + e) % 2 ^ 32 % rteMempoolAlign) % rteMempoolAlign) = t
  have trailerSmall : t < 64 := by
    rw [← trailer]
    split
    · decide
    · exact Nat.mod_lt _ (by decide)
  have room : (h + e + t) % 2 ^ 32 ≤ 67108837 * 64 := by omega
  obtain ⟨larger, below, units, whole, coprime⟩ := archMemObjectAlign_spec positive few room
  exact ⟨by omega, units, by omega, coprime⟩

theorem calcObjSize_whole {slots eltSize : Nat} (positive : 0 < slots) (few : slots < 2 ^ 32)
    (small : eltSize + 2048 ≤ 2 ^ 32) (noCacheAlign noSpread : Bool) :
    0 < (rteMempoolCalcObjSize slots eltSize noCacheAlign noSpread).total ∧
      (rteMempoolCalcObjSize slots eltSize noCacheAlign noSpread).total < 2 ^ 32 := by
  constructor
  · simp only [rteMempoolCalcObjSize, ObjSize.total, rteAlignCeil, rteMempoolAlign]
    cases noCacheAlign <;> simp only [Bool.false_eq_true, if_false, if_true] <;> omega
  · cases noSpread with
    | false => exact (calcObjSize_spread positive few small noCacheAlign).1
    | true =>
      simp only [rteMempoolCalcObjSize, ObjSize.total, rteAlignCeil, rteMempoolAlign]
      cases noCacheAlign <;> simp only [Bool.false_eq_true, if_false, if_true] <;> omega

/-- The sizes add up to a multiple of eight. -/
theorem calcObjSize_aligned (slots eltSize : Nat) (noCacheAlign noSpread : Bool) :
    8 ∣ (rteMempoolCalcObjSize slots eltSize noCacheAlign noSpread).total := by
  simp only [rteMempoolCalcObjSize, ObjSize.total, rteAlignCeil, rteMempoolAlign,
    archMemObjectAlign]
  cases noCacheAlign <;> cases noSpread <;>
    simp only [Bool.false_eq_true, if_false, if_true] <;> omega

/-- As many objects in a row as there are channels and ranks begin in different ones, and their
size does not wrap. -/
theorem objects_spread {nchannel nrank eltSize : Nat} (addr : Nat) (noCacheAlign : Bool)
    (some : 0 < memorySlots nchannel nrank) (small : eltSize + 2048 ≤ 2 ^ 32)
    (aligned : 64 ∣ addr) {i j : Nat} (order : i < j) (near : j < i + memorySlots nchannel nrank) :
    let size :=
      (rteMempoolCalcObjSize (memorySlots nchannel nrank) eltSize noCacheAlign false).total
    size < 2 ^ 32 ∧ (addr + i * size) / 64 % memorySlots nchannel nrank ≠
      (addr + j * size) / 64 % memorySlots nchannel nrank := by
  obtain ⟨below, units, whole, coprime⟩ :=
    calcObjSize_spread some (memorySlots_lt nchannel nrank) small noCacheAlign
  obtain ⟨base, rfl⟩ := aligned
  intro size
  refine ⟨below, fun same => ?_⟩
  have line : ∀ k, (64 * base + k * size) / 64 = base + k * units := by
    intro k
    rw [show size = units * 64 from whole, ← Nat.mul_assoc, Nat.mul_comm (k * units),
      ← Nat.mul_add]
    exact Nat.mul_div_cancel_left _ (by decide)
  rw [line, line] at same
  have steps : i * units ≡ j * units [MOD memorySlots nchannel nrank] :=
    Nat.ModEq.add_left_cancel' base same
  have equal : i ≡ j [MOD memorySlots nchannel nrank] :=
    steps.cancel_right_of_coprime coprime.symm
  have divides := (Nat.modEq_iff_dvd' (Nat.le_of_lt order)).mp equal
  have small := Nat.le_of_dvd (by omega) divides
  omega

theorem objects_spread_fourChannels :
    let size := (rteMempoolCalcObjSize (memorySlots 4 1) 40 false false).total
    size < 2 ^ 32 ∧
      (4096 + 0 * size) / 64 % memorySlots 4 1 ≠ (4096 + 3 * size) / 64 % memorySlots 4 1 :=
  objects_spread 4096 false (by decide) (by decide) (by decide) (by decide) (by decide)

end MempoolLayout
