import DpdkFilter.Mempool
import DpdkFilter.MempoolLayout

/-!
# The objects of a mempool have their own memory

What is placed is a packing of blocks into pages. The memory asked for holds all objects
wherever it begins and however its pages lie in IO memory, and the objects that a pool gives
out never overlap.
-/

namespace MempoolLayout

open PagePacking

/-! ## The placement is a packing -/

theorem ceil_of_not_dvd {page pos : Nat} (positive : 0 < page) (inside : ¬ page ∣ pos) :
    ceil pos page = (pos / page + 1) * page := by
  have split := Nat.div_add_mod pos page
  have small := Nat.mod_lt pos positive
  have rest : pos % page ≠ 0 := fun h => inside (Nat.dvd_of_mod_eq_zero h)
  rw [ceil]
  congr 1
  rw [Nat.div_eq_iff positive, Nat.add_mul, Nat.one_mul, Nat.mul_comm (pos / page)]
  omega

/-- Even objects do not end on the first byte of a page, so the check is right. -/
theorem nextOff_start {pgSz totalEltSz va off : Nat} (page : 0 < pgSz) (evenPage : 2 ∣ pgSz)
    (evenSize : 2 ∣ totalEltSz) (even : 2 ∣ va + off) (positive : 0 < totalEltSz)
    (fits : totalEltSz ≤ pgSz) :
    va + nextOff pgSz totalEltSz false va off = start pgSz totalEltSz (va + off) := by
  have check : checkObjBounds (va + off) pgSz totalEltSz =
      (rteAlignCeil (va + off) pgSz ≠ rteAlignCeil (va + off + totalEltSz - 1) pgSz) := by
    rw [checkObjBounds, if_neg (by omega), if_neg (by omega), decide_eq_true_eq]
  have same : ∀ pos, rteAlignCeil pos pgSz = ceil pos pgSz := fun _ => rfl
  have ahead := le_ceil (va + off) page
  by_cases boundary : pgSz ∣ va + off
  · have here := ceil_of_dvd page boundary
    rw [start_boundary boundary positive fits]
    simp only [nextOff, same, here, Bool.false_eq_true, if_false]
    split <;> omega
  · have odd : ¬ pgSz ∣ va + off + (totalEltSz - 1) := by
      intro h
      have := Nat.dvd_trans evenPage h
      omega
    rw [Nat.add_sub_assoc positive, same, same, ceil_of_not_dvd page boundary,
      ceil_of_not_dvd page odd] at check
    have crosses : checkObjBounds (va + off) pgSz totalEltSz ↔
        Crosses pgSz totalEltSz (va + off) := by
      rw [check, Crosses, ne_eq, ne_eq, Nat.mul_right_cancel_iff page, Nat.add_right_cancel_iff]
    simp only [nextOff, start, crosses, same, Bool.false_eq_true, if_false]
    split <;> omega

/-- The pages that matter to the check. -/
def effectivePage (pgSz totalEltSz : Nat) : Nat :=
  if pgSz = 0 ∨ totalEltSz > pgSz then 0 else pgSz

theorem nextOff_eq {pgSz totalEltSz va off : Nat} (evenPage : 2 ∣ pgSz) (evenSize : 2 ∣ totalEltSz)
    (even : 2 ∣ va + off) (positive : 0 < totalEltSz) :
    va + nextOff pgSz totalEltSz false va off =
      start (effectivePage pgSz totalEltSz) totalEltSz (va + off) := by
  unfold effectivePage
  split
  · rename_i free
    have unchecked : checkObjBounds (va + off) pgSz totalEltSz = false := by
      unfold checkObjBounds
      rcases free with none | large
      · rw [if_pos none]
      · split <;> rfl
    rw [start_zero, nextOff, unchecked]
    rfl
  · rename_i paged
    exact nextOff_start (by omega) evenPage evenSize even positive (by omega)

theorem start_even {page pos : Nat} (size : Nat) (evenPage : 2 ∣ page) (even : 2 ∣ pos) :
    2 ∣ start page size pos := by
  unfold start
  split
  · exact Nat.dvd_trans evenPage (dvd_ceil pos page)
  · exact even

theorem effectivePage_even {pgSz : Nat} (totalEltSz : Nat) (evenPage : 2 ∣ pgSz) :
    2 ∣ effectivePage pgSz totalEltSz := by
  unfold effectivePage
  split
  · exact Nat.dvd_zero 2
  · exact evenPage

theorem populateLoop_addrs {sz : ObjSize} {pgSz va len n off : Nat} {iova : Option Nat}
    (evenPage : 2 ∣ pgSz) (evenSize : 2 ∣ sz.total) (even : 2 ∣ va + off)
    (positive : 0 < sz.total) :
    (populateLoop sz pgSz false va iova len n off).map Obj.addr =
      (pack (effectivePage pgSz sz.total) sz.total (va + len) n (va + off)).map
        (· + sz.headerSize) := by
  induction n generalizing off with
  | zero => rfl
  | succ n ih =>
    have moved := nextOff_eq evenPage evenSize even positive
    have even' := start_even sz.total (effectivePage_even sz.total evenPage) even
    have size : sz.total = sz.headerSize + sz.eltSize + sz.trailerSize := rfl
    rw [populateLoop, pack, ← moved]
    split
    · rename_i beyond
      rw [if_neg (by omega)]
      rfl
    · rename_i inside
      have next : va + (nextOff pgSz sz.total false va off + sz.headerSize +
          (sz.eltSize + sz.trailerSize)) = va + nextOff pgSz sz.total false va off + sz.total := by
        omega
      rw [← moved] at even'
      rw [if_pos (by omega), List.map_cons, List.map_cons, ih (by rw [next]; omega), next]
      exact congrArg (· :: _) (Nat.add_assoc ..).symm

/-! ## Groups of pages -/

section
variable {getIova : Nat → Option Nat} {pgSz addr len : Nat}

/-- What translates addresses translates those of a page together. -/
def PageWise (getIova : Nat → Option Nat) (pgSz : Nat) : Prop :=
  ∀ a i, a / pgSz = (a + i) / pgSz → getIova (a + i) = (getIova a).map (· + i)

/-- A group of `physLen` bytes up to a page boundary or the end, where the IO addresses go on. -/
structure Contiguous (getIova : Nat → Option Nat) (pgSz addr len physLen : Nat) : Prop where
  nonempty : 0 < physLen
  within : physLen ≤ len
  ends : physLen = len ∨ pgSz ∣ addr + physLen
  follows : PageWise getIova pgSz → ∀ i < physLen, getIova (addr + i) = (getIova addr).map (· + i)

theorem physLenLoop_contiguous (page : 0 < pgSz) {fuel physLen : Nat}
    (h : Contiguous getIova pgSz addr len physLen) :
    Contiguous getIova pgSz addr len (physLenLoop getIova pgSz addr len fuel physLen) := by
  induction fuel generalizing physLen with
  | zero => exact h
  | succ fuel ih =>
    rw [physLenLoop]
    split
    · rename_i more
      split
      · rename_i iova iovaTmp first next
        split
        · rename_i goesOn
          have start := h.nonempty
          have boundary := h.ends.resolve_left (Nat.ne_of_lt more)
          refine ih ⟨by omega, Nat.min_le_right _ _, ?_, fun pageWise i below => ?_⟩
          · by_cases short : physLen + pgSz ≤ len
            · rw [Nat.min_eq_left short, ← Nat.add_assoc]
              exact .inr (Nat.dvd_add boundary (Nat.dvd_refl pgSz))
            · exact .inl (Nat.min_eq_right (by omega))
          · by_cases old : i < physLen
            · exact h.follows pageWise i old
            · obtain ⟨k, rfl⟩ := Nat.exists_eq_add_of_le (Nat.le_of_not_lt old)
              obtain ⟨b, hb⟩ := boundary
              have inPage : (addr + physLen) / pgSz = (addr + physLen + k) / pgSz := by
                rw [hb, Nat.mul_add_div page, Nat.mul_div_cancel_left b page,
                  Nat.div_eq_of_lt (by omega), Nat.add_zero]
              rw [← Nat.add_assoc, pageWise _ _ inPage, next, first, goesOn, Option.map_some,
                Option.map_some, Nat.add_assoc]
        · exact h
      · exact h
    · exact h

theorem physLenOf_contiguous (getIova : Nat → Option Nat) (addr : Nat) (page : 0 < pgSz)
    (more : 0 < len) :
    Contiguous getIova pgSz addr len (physLenOf getIova pgSz addr len) := by
  have next : rteAlignCeil (addr + 1) pgSz = (addr / pgSz + 1) * pgSz := by
    rw [rteAlignCeil, Nat.add_assoc, Nat.add_sub_cancel' page, Nat.add_div_right addr page]
  have split := Nat.div_add_mod addr pgSz
  have small := Nat.mod_lt addr page
  have ahead : addr < (addr / pgSz + 1) * pgSz := by
    rw [Nat.add_mul, Nat.one_mul, Nat.mul_comm (addr / pgSz)]
    omega
  refine physLenLoop_contiguous page ⟨by omega, Nat.min_le_right _ _, ?_,
    fun pageWise i below => ?_⟩
  · by_cases short : rteAlignCeil (addr + 1) pgSz - addr ≤ len
    · rw [Nat.min_eq_left short, Nat.add_sub_cancel' (by omega), next]
      exact .inr (Nat.dvd_mul_left _ _)
    · exact .inl (Nat.min_eq_right (by omega))
  · refine pageWise _ _ (Nat.le_antisymm (Nat.div_le_div_right (Nat.le_add_right addr i)) ?_)
    refine Nat.le_of_lt_succ ((Nat.div_lt_iff_lt_mul page).mpr ?_)
    rw [Nat.succ_eq_add_one]
    omega

end

/-! ## Chunks -/

universe u

section
variable {mp : Placement} {getIova : Nat → Option Nat} {addr len n : Nat} {iova : Option Nat}

/-- The pages of the placement. -/
def Placement.page (mp : Placement) : Nat := effectivePage mp.pgSz mp.sz.total

theorem pgSz_aligned (mp : Placement) : 64 ∣ mp.pgSz := by
  unfold Placement.pgSz
  split
  · exact Nat.dvd_zero 64
  · exact Nat.pow_dvd_pow 2 mp.pages

theorem align_dvd_page (mp : Placement) : mp.align ∣ mp.pgSz := by
  unfold Placement.align
  split
  · exact Nat.dvd_trans (by decide) (pgSz_aligned mp)
  · exact pgSz_aligned mp

theorem ceil_align_even (mp : Placement) (addr : Nat) : 2 ∣ rteAlignCeil addr mp.align := by
  refine Nat.dvd_trans ?_ (dvd_ceil addr mp.align)
  unfold Placement.align
  split <;> decide

theorem align_pos (mp : Placement) : 0 < mp.align := by
  unfold Placement.align
  split <;> decide

/-- A chunk holds the packing from its first aligned address on. -/
theorem populateIova_addrs (mp : Placement) (n : Nat) (iova : Option Nat) {addr len : Nat}
    (inside : rteAlignCeil addr mp.align ≤ addr + len) :
    (rteMempoolPopulateIova mp n addr iova len).map Obj.addr =
      (pack mp.page mp.sz.total (addr + len) n (rteAlignCeil addr mp.align)).map
        (· + mp.sz.headerSize) := by
  have ahead : addr ≤ rteAlignCeil addr mp.align := le_ceil addr (align_pos mp)
  have even := ceil_align_even mp addr
  have evenPage := Nat.dvd_trans (show 2 ∣ 64 by decide) (pgSz_aligned mp)
  have evenSize := Nat.dvd_trans (show 2 ∣ 8 by decide) mp.aligned
  rw [rteMempoolPopulateIova, if_neg (by omega), rteMempoolOpPopulateHelper,
    if_neg Bool.false_ne_true,
    populateLoop_addrs evenPage evenSize (by omega) mp.positive]
  congr 2
  · omega
  · omega

/-- However the pages lie in IO memory, a virtual area holds one packing. -/
theorem populateVirtLoop_addrs (getIova : Nat → Option Nat) (n : Nat) {fuel : Nat}
    (fits : mp.sz.total ≤ mp.pgSz)
    (aligned : mp.align ∣ addr) (enough : len ≤ fuel) :
    (populateVirtLoop mp getIova fuel n addr len).map Obj.addr =
      (pack mp.pgSz mp.sz.total (addr + len) n addr).map (· + mp.sz.headerSize) := by
  have positive := mp.positive
  have page : mp.page = mp.pgSz := if_neg (by omega)
  induction fuel generalizing n addr len with
  | zero =>
    have beyond := le_start mp.pgSz mp.sz.total addr
    cases n with
    | zero => rfl
    | succ n =>
      rw [pack, if_neg (by omega)]
      rfl
  | succ fuel ih =>
    rw [populateVirtLoop]
    split
    · rename_i more
      have group := physLenOf_contiguous getIova addr (show 0 < mp.pgSz by omega) more.1
      generalize physLenOf getIova mp.pgSz addr len = physLen at group
      have here : rteAlignCeil addr mp.align = addr := ceil_of_dvd (align_pos mp) aligned
      have first := populateIova_addrs mp n (getIova addr)
        (show rteAlignCeil addr mp.align ≤ addr + physLen by omega)
      rw [here, page] at first
      have number := congrArg List.length first
      rw [List.length_map, List.length_map] at number
      have start := group.nonempty
      have within := group.within
      rw [List.map_append, first, number]
      rcases group.ends with all | boundary
      · have nothing : populateVirtLoop mp getIova fuel
            (n - (pack mp.pgSz mp.sz.total (addr + physLen) n addr).length) (addr + physLen)
            (len - physLen) = [] := by
          cases fuel with
          | zero => rfl
          | succ fuel => rw [populateVirtLoop, if_neg (by omega)]
        rw [nothing, all, List.map_nil, List.append_nil]
      · rw [ih _ (Nat.dvd_trans (align_dvd_page mp) boundary) (by omega),
          pack_split boundary positive fits (Nat.le_add_right ..) (Nat.add_le_add_left within addr),
          List.map_append, Nat.add_assoc addr physLen, Nat.add_sub_cancel' within]
    · rename_i none
      have beyond := le_start mp.pgSz mp.sz.total addr
      cases n with
      | zero => rfl
      | succ n =>
        rw [pack, if_neg (by omega)]
        rfl

/-! ## The memory asked for is enough -/

theorem calcMemSize_room {totalEltSz objNum pgShift : Nat} (positive : 0 < totalEltSz)
    (some : 0 < objNum) (paged : pgShift ≠ 0) (fits : totalEltSz ≤ 2 ^ pgShift) :
    rteMempoolOpCalcMemSizeDefault totalEltSz objNum pgShift =
      .some (room (2 ^ pgShift) totalEltSz objNum + (totalEltSz - 1)) := by
  obtain ⟨n, rfl⟩ := Nat.exists_eq_add_of_le' some
  obtain ⟨q, r, inside, rfl⟩ := exists_pages n positive fits
  have many : 0 < 2 ^ pgShift / totalEltSz := by omega
  have last : (2 ^ pgShift / totalEltSz * q + r) % (2 ^ pgShift / totalEltSz) = r := by
    rw [Nat.mul_add_mod, Nat.mod_eq_of_lt inside]
  have full :
      (2 ^ pgShift / totalEltSz * q + r + 1 - (r + 1)) / (2 ^ pgShift / totalEltSz) = q := by
    rw [Nat.add_assoc, Nat.add_sub_cancel, Nat.mul_div_cancel_left q many]
  have large := Nat.two_pow_pos pgShift
  rw [rteMempoolOpCalcMemSizeDefault, rteMempoolOpCalcMemSizeHelper, if_neg (by omega),
    if_neg paged]
  simp only [Nat.sub_zero, Nat.add_zero, Nat.add_sub_cancel, last, full]
  rw [if_neg (by omega), if_neg (by omega), room_at inside]
  congr 2
  exact Nat.add_comm _ _

theorem calcMemSize_plain (totalEltSz objNum : Nat) :
    rteMempoolOpCalcMemSizeDefault totalEltSz objNum 0 = some (totalEltSz * objNum) := by
  rw [rteMempoolOpCalcMemSizeDefault, rteMempoolOpCalcMemSizeHelper]
  split
  · rename_i none
    rw [none, Nat.zero_mul]
  · rfl

/-- A zone of the size asked for, aligned as asked for, holds all objects. -/
theorem zone_suffices (getIova : Nat → Option Nat) (iova : Option Nat) {objNum memSize : Nat}
    (some : 0 < objNum)
    (asked : rteMempoolOpCalcMemSizeDefault mp.sz.total objNum mp.pgShift = .some memSize)
    (fits : mp.noIovaContig = true ∨ mp.sz.total ≤ mp.pgSz) (aligned : mp.align ∣ addr)
    (enough : memSize ≤ len) :
    (rteMempoolPopulateIova mp objNum addr iova len).length = objNum ∧
      (rteMempoolPopulateVirt mp getIova objNum addr len).length = objNum := by
  have here : rteAlignCeil addr mp.align = addr := ceil_of_dvd (align_pos mp) aligned
  have chunk : ∀ iova, (rteMempoolPopulateIova mp objNum addr iova len).length =
      (pack mp.page mp.sz.total (addr + len) objNum addr).length := by
    intro iova
    have placed := congrArg List.length (populateIova_addrs mp objNum iova
      (show rteAlignCeil addr mp.align ≤ addr + len by omega))
    rwa [List.length_map, List.length_map, here] at placed
  cases contig : mp.noIovaContig with
  | true =>
    have free : mp.pgShift = 0 ∧ mp.page = 0 := by
      simp [Placement.pgShift, Placement.page, Placement.pgSz, effectivePage, contig]
    rw [free.1, calcMemSize_plain] at asked
    cases asked
    have all : (pack 0 mp.sz.total (addr + len) objNum addr).length = objNum :=
      length_pack_zero (by rw [Nat.mul_comm]; omega)
    rw [rteMempoolPopulateVirt, if_pos contig, chunk, chunk, free.2]
    exact ⟨all, all⟩
  | false =>
    have pgSz : mp.pgSz = 2 ^ mp.minPgShift := by simp [Placement.pgSz, contig]
    have pgShift : mp.pgShift = mp.minPgShift := by simp [Placement.pgShift, contig]
    have fits' : mp.sz.total ≤ mp.pgSz := fits.resolve_left (by simp [contig])
    have positive := mp.positive
    have pages := mp.pages
    have page : mp.page = mp.pgSz := if_neg (by omega)
    rw [pgShift, calcMemSize_room positive some (by omega) (pgSz ▸ fits'), ← pgSz] at asked
    cases asked
    have all : (pack mp.pgSz mp.sz.total (addr + len) objNum addr).length = objNum :=
      length_pack positive fits' (by omega)
    have area := congrArg List.length
      (populateVirtLoop_addrs getIova objNum fits' aligned (Nat.le_refl len))
    rw [List.length_map, List.length_map] at area
    rw [rteMempoolPopulateVirt, if_neg (by simp [contig]), chunk, page, area]
    exact ⟨all, all⟩

/-- If the memory asked for is there, one zone holds the whole mempool, however its pages lie in
IO memory. -/
theorem first_zone_suffices {reserve : Nat → Bool → Nat → Reserved} {size memSize : Nat}
    {mz : Zone} (some : 0 < size)
    (asked : rteMempoolOpCalcMemSizeDefault mp.sz.total size mp.pgShift = .some memSize)
    (fits : mp.noIovaContig = true ∨ mp.sz.total ≤ mp.pgSz) (small : memSize < 2 ^ 64)
    (reserved : reserve 0 (memSize = mp.sz.total) memSize = .zone mz)
    (aligned : mp.align ∣ mz.addr) (enough : memSize ≤ mz.len) :
    ∃ objs, objs.length = size ∧
      rteMempoolPopulateDefault mp getIova reserve size = .some [(mz, objs)] := by
  obtain ⟨n, rfl⟩ := Nat.exists_eq_add_of_le' some
  have got : reserveLoop (reserve 0 (memSize = mp.sz.total)) memSize mp.sz.total (memSize + 1)
      (2 ^ 64 - 1) = (.zone mz, 2 ^ 64 - 1) := by
    rw [reserveLoop, Nat.min_eq_left (by omega), reserved]
  have holds := fun iova => zone_suffices getIova iova some asked fits aligned enough
  have finished : ∀ objs : List Obj, objs.length = n + 1 → ∀ mzId maxAllocSize contig,
      populateDefaultLoop mp getIova reserve n mzId (n + 1 - objs.length) maxAllocSize contig =
        .some [] := by
    intro objs all mzId maxAllocSize contig
    rw [all, Nat.sub_self]
    cases n <;> rfl
  have nonempty : ∀ objs : List Obj, objs.length = n + 1 → objs ≠ [] := by
    rintro objs all rfl
    cases all
  have all : ∀ contig, (populateZone mp getIova (n + 1) mz contig).length = n + 1 := by
    intro contig
    unfold populateZone
    split
    · exact (holds _).1
    · exact (holds none).2
  refine ⟨populateZone mp getIova (n + 1) mz (memSize = mp.sz.total), all _, ?_⟩
  rw [rteMempoolPopulateDefault, populateDefaultLoop, if_neg (by omega), asked]
  simp only [Bool.false_or, got]
  rw [if_neg (nonempty _ (all _)), finished _ (all _)]
  rfl

/-- Objects of three cache lines, which four channels get in turn. -/
def spread : Placement where
  sz := ⟨64, 40, 88⟩
  minPgShift := 12
  noCacheAlign := false
  noIovaContig := false
  positive := by decide
  whole := by decide
  aligned := by decide
  pages := by decide

def wholeZone (_ : Nat) (_ : Bool) (size : Nat) : Reserved := .zone ⟨4096, size, some 4096⟩

theorem first_zone_suffices_spread : ∃ objs, objs.length = 2 ∧
    rteMempoolPopulateDefault spread some wholeZone 2 = some [(⟨4096, 575, some 4096⟩, objs)] :=
  first_zone_suffices (by decide) rfl (.inr (by decide)) (by decide) rfl (by decide) (by decide)

/-! ## Each object by itself -/

theorem le_nextOff (pgSz totalEltSz : Nat) (alignObj : Bool) (va off : Nat) :
    off ≤ nextOff pgSz totalEltSz alignObj va off := by
  unfold nextOff
  split
  · simp only
    split <;> omega
  · exact Nat.le_refl off

/-- An object, its offset and what it has from the chunk. -/
theorem mem_populateLoop {sz : ObjSize} {pgSz va off : Nat} {alignObj : Bool} {o : Obj}
    (h : o ∈ populateLoop sz pgSz alignObj va iova len n off) :
    ∃ place, off ≤ place ∧ place + sz.total ≤ len ∧
      o = ⟨va + (place + sz.headerSize), iova.map (· + (place + sz.headerSize))⟩ := by
  induction n generalizing off with
  | zero => cases h
  | succ n ih =>
    rw [populateLoop] at h
    split at h
    · cases h
    · rename_i inside
      have later := le_nextOff pgSz sz.total alignObj va off
      rcases List.mem_cons.mp h with rfl | rest
      · exact ⟨_, later, Nat.le_of_not_gt inside, rfl⟩
      · obtain ⟨place, after, within, rfl⟩ := ih rest
        exact ⟨place, by omega, within, rfl⟩

theorem populateLoop_apart (sz : ObjSize) (pgSz va off : Nat) (alignObj : Bool) :
    (populateLoop sz pgSz alignObj va iova len n off).Pairwise
      fun a b => a.addr + sz.total ≤ b.addr := by
  induction n generalizing off with
  | zero => exact .nil
  | succ n ih =>
    rw [populateLoop]
    split
    · exact .nil
    · refine .cons (fun o ho => ?_) (ih _)
      obtain ⟨place, after, -, rfl⟩ := mem_populateLoop ho
      have size : sz.total = sz.headerSize + sz.eltSize + sz.trailerSize := rfl
      simp only
      omega

/-- The objects of an area: each with its header and trailer in it, one after the other. -/
structure Laid (sz : ObjSize) (addr len : Nat) (objs : List Obj) : Prop where
  inside : ∀ o ∈ objs, ∃ base, o.addr = base + sz.headerSize ∧ addr ≤ base ∧
    base + sz.total ≤ addr + len
  apart : objs.Pairwise fun a b => a.addr + sz.total ≤ b.addr

theorem Laid.nil (sz : ObjSize) (addr len : Nat) : Laid sz addr len [] :=
  ⟨fun _ h => absurd h List.not_mem_nil, .nil⟩

theorem Laid.append {sz : ObjSize} {physLen : Nat} {xs ys : List Obj} (hx : Laid sz addr physLen xs)
    (hy : Laid sz (addr + physLen) (len - physLen) ys) (within : physLen ≤ len) :
    Laid sz addr len (xs ++ ys) := by
  refine ⟨fun o ho => ?_, List.pairwise_append.mpr ⟨hx.apart, hy.apart, fun a ha b hb => ?_⟩⟩
  · rcases List.mem_append.mp ho with first | rest
    · obtain ⟨base, at_base, lower, upper⟩ := hx.inside o first
      exact ⟨base, at_base, lower, by omega⟩
    · obtain ⟨base, at_base, lower, upper⟩ := hy.inside o rest
      exact ⟨base, at_base, by omega, by omega⟩
  · obtain ⟨base, at_base, lower, upper⟩ := hx.inside a ha
    obtain ⟨base', at_base', lower', upper'⟩ := hy.inside b hb
    omega

theorem mem_populateIova {o : Obj} (h : o ∈ rteMempoolPopulateIova mp n addr iova len) :
    ∃ place, place + mp.sz.total ≤ len ∧
      o = ⟨addr + place + mp.sz.headerSize, iova.map (· + (place + mp.sz.headerSize))⟩ := by
  rw [rteMempoolPopulateIova] at h
  split at h
  · cases h
  · obtain ⟨place, -, within, rfl⟩ := mem_populateLoop h
    refine ⟨rteAlignCeil addr mp.align - addr + place, by omega, ?_⟩
    rw [Option.map_map]
    congr 1
    · omega
    · congr 1
      funext io
      simp only [Function.comp_apply]
      omega

theorem populateIova_laid (mp : Placement) (n addr : Nat) (iova : Option Nat) (len : Nat) :
    Laid mp.sz addr len (rteMempoolPopulateIova mp n addr iova len) := by
  refine ⟨fun o ho => ?_, ?_⟩
  · obtain ⟨place, within, rfl⟩ := mem_populateIova ho
    exact ⟨addr + place, rfl, by omega, by omega⟩
  · rw [rteMempoolPopulateIova]
    split
    · exact .nil
    · exact populateLoop_apart _ _ _ _ _

theorem populateVirtLoop_laid (mp : Placement) (getIova : Nat → Option Nat) (fuel n addr len : Nat)
    (page : 0 < mp.pgSz) : Laid mp.sz addr len (populateVirtLoop mp getIova fuel n addr len) := by
  induction fuel generalizing n addr len with
  | zero => exact .nil ..
  | succ fuel ih =>
    rw [populateVirtLoop]
    split
    · rename_i more
      have group := physLenOf_contiguous getIova addr page more.1
      exact (populateIova_laid mp n addr _ _).append (ih _ _ _) group.within
    · exact .nil ..

theorem populateVirt_laid (mp : Placement) (getIova : Nat → Option Nat) (n addr len : Nat) :
    Laid mp.sz addr len (rteMempoolPopulateVirt mp getIova n addr len) := by
  rw [rteMempoolPopulateVirt]
  split
  · exact populateIova_laid ..
  · rename_i contig
    refine populateVirtLoop_laid _ _ _ _ _ _ ?_
    rw [Placement.pgSz, if_neg contig]
    exact Nat.two_pow_pos _

/-- In one stretch of IO memory from the address that the header is given. -/
def InOneStretch (getIova : Nat → Option Nat) (sz : ObjSize) (o : Obj) : Prop :=
  ∃ base, o.addr = base + sz.headerSize ∧ o.iova = (getIova base).map (· + sz.headerSize) ∧
    ∀ i < sz.total, getIova (base + i) = (getIova base).map (· + i)

theorem populateIova_contiguous (follows : ∀ i < len, getIova (addr + i) = iova.map (· + i))
    {o : Obj} (h : o ∈ rteMempoolPopulateIova mp n addr iova len) :
    InOneStretch getIova mp.sz o := by
  obtain ⟨place, within, rfl⟩ := mem_populateIova h
  have size := mp.positive
  have here := follows place (by omega)
  refine ⟨addr + place, rfl, ?_, fun i below => ?_⟩
  · simp only [here, Option.map_map]
    congr 1
    funext io
    exact (Nat.add_assoc io place _).symm
  · rw [Nat.add_assoc, follows (place + i) (by omega), here, Option.map_map]
    congr 1
    funext io
    exact (Nat.add_assoc io place i).symm

theorem populateVirtLoop_contiguous (page : 0 < mp.pgSz) (pageWise : PageWise getIova mp.pgSz)
    {fuel : Nat} {o : Obj} (h : o ∈ populateVirtLoop mp getIova fuel n addr len) :
    InOneStretch getIova mp.sz o := by
  induction fuel generalizing n addr len with
  | zero => cases h
  | succ fuel ih =>
    rw [populateVirtLoop] at h
    split at h
    · rename_i more
      have group := physLenOf_contiguous getIova addr page more.1
      rcases List.mem_append.mp h with first | rest
      · exact populateIova_contiguous (group.follows pageWise) first
      · exact ih rest
    · cases h

/-! ## The whole mempool -/

theorem populateLoop_length_le (sz : ObjSize) (pgSz va off : Nat) (alignObj : Bool) :
    (populateLoop sz pgSz alignObj va iova len n off).length ≤ n := by
  induction n generalizing off with
  | zero => exact Nat.le_refl 0
  | succ n ih =>
    rw [populateLoop]
    split
    · exact Nat.zero_le _
    · exact Nat.succ_le_succ (ih _)

theorem populateIova_length_le (mp : Placement) (n addr : Nat) (iova : Option Nat) (len : Nat) :
    (rteMempoolPopulateIova mp n addr iova len).length ≤ n := by
  rw [rteMempoolPopulateIova]
  split
  · exact Nat.zero_le _
  · exact populateLoop_length_le ..

theorem populateVirt_length_le (mp : Placement) (getIova : Nat → Option Nat) (n addr len : Nat) :
    (rteMempoolPopulateVirt mp getIova n addr len).length ≤ n := by
  have loop : ∀ fuel n addr len, (populateVirtLoop mp getIova fuel n addr len).length ≤ n := by
    intro fuel
    induction fuel with
    | zero =>
      intro n addr len
      exact Nat.zero_le n
    | succ fuel ih =>
      intro n addr len
      rw [populateVirtLoop]
      split
      · have first := populateIova_length_le mp n addr (getIova addr)
          (physLenOf getIova mp.pgSz addr len)
        have rest := ih (n - (rteMempoolPopulateIova mp n addr (getIova addr)
          (physLenOf getIova mp.pgSz addr len)).length)
          (addr + physLenOf getIova mp.pgSz addr len) (len - physLenOf getIova mp.pgSz addr len)
        rw [List.length_append]
        omega
      · exact Nat.zero_le n
  rw [rteMempoolPopulateVirt]
  split
  · exact populateIova_length_le ..
  · exact loop ..

theorem reserveLoop_zone {reserve : Nat → Reserved} {memSize minChunkSize fuel maxAllocSize : Nat}
    {mz : Zone} {left : Nat}
    (h : reserveLoop reserve memSize minChunkSize fuel maxAllocSize = (.zone mz, left)) :
    ∃ size, reserve size = .zone mz := by
  induction fuel generalizing maxAllocSize with
  | zero => cases h
  | succ fuel ih =>
    rw [reserveLoop] at h
    split at h
    · simp only at h
      split at h
      · exact ih h
      · cases h
    · exact ⟨_, congrArg Prod.fst h⟩

/-- The objects of a zone, put there in one of the two ways. -/
inductive Filled (mp : Placement) (getIova : Nat → Option Nat)
    (reserve : Nat → Bool → Nat → Reserved) (mz : Zone) (n : Nat) : List Obj → Prop where
  | iova (mzId : Nat) (contig : Bool) (size : Nat) (got : reserve mzId contig size = .zone mz)
      (whole : mp.pgSz = 0 ∨ contig = true) :
      Filled mp getIova reserve mz n (rteMempoolPopulateIova mp n mz.addr
        (if mp.noIovaContig then none else mz.iova) mz.len)
  | virt : Filled mp getIova reserve mz n (rteMempoolPopulateVirt mp getIova n mz.addr mz.len)

/-- A mempool that is populated has all its objects, each zone filled with some of them. -/
theorem populateDefaultLoop_spec {reserve : Nat → Bool → Nat → Reserved}
    {fuel mzId maxAllocSize : Nat} {contig : Bool} {chunks : List (Zone × List Obj)}
    (h : populateDefaultLoop mp getIova reserve fuel mzId n maxAllocSize contig = some chunks) :
    (chunks.flatMap Prod.snd).length = n ∧
      ∀ chunk ∈ chunks, ∃ k, Filled mp getIova reserve chunk.1 k chunk.2 := by
  induction fuel generalizing mzId n maxAllocSize contig chunks with
  | zero =>
    rw [populateDefaultLoop] at h
    split at h
    · rename_i done
      cases h
      exact ⟨done.symm, fun _ hc => absurd hc List.not_mem_nil⟩
    · cases h
  | succ fuel ih =>
    rw [populateDefaultLoop] at h
    split at h
    · rename_i done
      cases h
      exact ⟨done.symm, fun _ hc => absurd hc List.not_mem_nil⟩
    split at h
    · cases h
    simp only at h
    split at h
    · rename_i mz left got
      obtain ⟨size, at_size⟩ := reserveLoop_zone got
      generalize placed : populateZone mp getIova n mz _ = objs at h
      have filled : Filled mp getIova reserve mz n objs ∧ objs.length ≤ n := by
        rw [← placed, populateZone]
        split
        · rename_i whole
          exact ⟨.iova mzId _ size at_size whole, populateIova_length_le ..⟩
        · exact ⟨.virt, populateVirt_length_le ..⟩
      split at h
      · cases h
      · obtain ⟨others, populated, rfl⟩ := Option.map_eq_some_iff.mp h
        obtain ⟨rest, zones⟩ := ih populated
        refine ⟨?_, fun chunk hc => ?_⟩
        · rw [List.flatMap_cons, List.length_append, rest]
          exact Nat.add_sub_cancel' filled.2
        · rcases List.mem_cons.mp hc with rfl | later
          · exact ⟨n, filled.1⟩
          · exact zones chunk later
    · cases h

theorem Filled.laid {reserve : Nat → Bool → Nat → Reserved} {mz : Zone} {objs : List Obj}
    (h : Filled mp getIova reserve mz n objs) : Laid mp.sz mz.addr mz.len objs := by
  cases h with
  | iova mzId contig size got whole => exact populateIova_laid ..
  | virt => exact populateVirt_laid ..

/-- Every object of a populated mempool lies in memory whose IO addresses go on from the one
that its header is given, in a zone that is contiguous as a whole or in one that is not. -/
theorem populated_contiguous {reserve : Nat → Bool → Nat → Reserved} {size : Nat}
    {chunks : List (Zone × List Obj)} (contig : mp.noIovaContig = false)
    (pageWise : PageWise getIova mp.pgSz)
    (zones : ∀ mzId size mz, reserve mzId true size = .zone mz →
      ∀ i < mz.len, getIova (mz.addr + i) = mz.iova.map (· + i))
    (h : rteMempoolPopulateDefault mp getIova reserve size = some chunks) {o : Obj}
    (ho : o ∈ chunks.flatMap Prod.snd) : InOneStretch getIova mp.sz o := by
  obtain ⟨chunk, hc, at_chunk⟩ := List.mem_flatMap.mp ho
  obtain ⟨k, filled⟩ := (populateDefaultLoop_spec h).2 chunk hc
  have page : 0 < mp.pgSz := by
    rw [Placement.pgSz, if_neg (by simp [contig])]
    exact Nat.two_pow_pos _
  generalize chunk.1 = mz at filled
  generalize chunk.2 = objs at filled at_chunk
  cases filled with
  | iova mzId whole' size got whole =>
    obtain rfl := whole.resolve_left (Nat.ne_of_gt page)
    rw [if_neg (by simp [contig])] at at_chunk
    exact populateIova_contiguous (zones mzId size mz got) at_chunk
  | virt =>
    rw [rteMempoolPopulateVirt, if_neg (by simp [contig])] at at_chunk
    exact populateVirtLoop_contiguous page pageWise at_chunk

/-- Neither object begins before the other one ends. -/
def Apart (sz : ObjSize) (a b : Obj) : Prop :=
  a.addr + sz.total ≤ b.addr ∨ b.addr + sz.total ≤ a.addr

def ZonesApart (chunks : List (Zone × List Obj)) : Prop :=
  chunks.Pairwise fun a b => a.1.addr + a.1.len ≤ b.1.addr ∨ b.1.addr + b.1.len ≤ a.1.addr

theorem objects_apart {sz : ObjSize} {chunks : List (Zone × List Obj)}
    (laid : ∀ chunk ∈ chunks, Laid sz chunk.1.addr chunk.1.len chunk.2)
    (zones : ZonesApart chunks) : (chunks.flatMap Prod.snd).Pairwise (Apart sz) := by
  refine List.pairwise_flatMap.mpr ⟨fun chunk hc => ?_, ?_⟩
  · exact (laid chunk hc).apart.imp .inl
  · refine zones.imp_of_mem fun ha hb apart a at_a b at_b => ?_
    obtain ⟨base, here, lower, upper⟩ := (laid _ ha).inside a at_a
    obtain ⟨base', here', lower', upper'⟩ := (laid _ hb).inside b at_b
    unfold Apart
    omega

section
variable {reserve : Nat → Bool → Nat → Reserved} {size : Nat} {chunks : List (Zone × List Obj)}

theorem populated_laid (populated : rteMempoolPopulateDefault mp getIova reserve size = some chunks)
    (chunk : Zone × List Obj) (hc : chunk ∈ chunks) :
    Laid mp.sz chunk.1.addr chunk.1.len chunk.2 := by
  obtain ⟨k, filled⟩ := (populateDefaultLoop_spec populated).2 chunk hc
  exact filled.laid

theorem populated_apart
    (populated : rteMempoolPopulateDefault mp getIova reserve size = some chunks)
    (zones : ZonesApart chunks) : (chunks.flatMap Prod.snd).Pairwise (Apart mp.sz) :=
  objects_apart (populated_laid populated) zones

end

/-- The objects that a pool has given out never overlap, and each lies in a zone with its header
and trailer. -/
theorem given_out_apart {T : Type u} [Fintype T] [DecidableEq T] {m : Mempool.PoolSize}
    {cached : T → Bool} {s : Mempool.State T Obj} {reserve : Nat → Bool → Nat → Reserved}
    {chunks : List (Zone × List Obj)}
    (populated : rteMempoolPopulateDefault mp getIova reserve m.size = some chunks)
    (zones : ZonesApart chunks)
    (h : (Mempool.pool m cached (chunks.flatMap Prod.snd)).Reachable s) :
    s.held.Pairwise (Apart mp.sz) ∧
      ∀ o ∈ s.held, ∃ chunk ∈ chunks, ∃ base, o.addr = base + mp.sz.headerSize ∧
        chunk.1.addr ≤ base ∧ base + mp.sz.total ≤ chunk.1.addr + chunk.1.len := by
  have all := (Mempool.reachable_inv h).conserved
  have among : s.held.Subperm (chunks.flatMap Prod.snd) := by
    rw [← Multiset.coe_le, ← all]
    exact Multiset.le_add_left _ _
  refine ⟨?_, fun o ho => ?_⟩
  · obtain ⟨objs, same, sub⟩ := among
    exact ((populated_apart populated zones).sublist sub).perm same Or.symm
  · obtain ⟨chunk, hc, at_chunk⟩ := List.mem_flatMap.mp (among.subset ho)
    exact ⟨chunk, hc, (populated_laid populated chunk hc).inside o at_chunk⟩

end

def twoObjects : Mempool.PoolSize := ⟨2, 0, 3, by decide, by decide, by decide⟩

def wholeChunks : List (Zone × List Obj) :=
  [(⟨4096, 575, some 4096⟩, [⟨4160, some 4160⟩, ⟨4352, some 4352⟩])]

theorem wholeChunks_populated :
    rteMempoolPopulateDefault spread some wholeZone twoObjects.size = some wholeChunks := by
  decide +kernel

/-- One thread asks for both objects. -/
def bothGivenOut : Option (Mempool.State Bool Obj) :=
  Interleaving.System.follow (fun mv s => Mempool.exec twoObjects s mv)
    [.getCall true 2, .getStep true, .getStep true]
    (.populated (fun _ => false) [⟨4160, some 4160⟩, ⟨4352, some 4352⟩])

theorem bothGivenOut_runs :
    bothGivenOut.map Mempool.State.held = some [⟨4160, some 4160⟩, ⟨4352, some 4352⟩] := by
  decide +kernel

theorem given_out_apart_bothGivenOut : ∃ s, bothGivenOut = some s ∧
    s.held.Pairwise (Apart spread.sz) ∧ ∀ o ∈ s.held, ∃ chunk ∈ wholeChunks, ∃ base,
      o.addr = base + spread.sz.headerSize ∧
      chunk.1.addr ≤ base ∧ base + spread.sz.total ≤ chunk.1.addr + chunk.1.len := by
  obtain ⟨s, hs, -⟩ := Option.map_eq_some_iff.mp bothGivenOut_runs
  exact ⟨s, hs, given_out_apart wholeChunks_populated (List.pairwise_singleton ..)
    (Mempool.follow_reachable rfl hs)⟩

end MempoolLayout
