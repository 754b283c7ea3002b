import DpdkFilter.CString

/-!
# The state of the KNI library before an interface exists

The library keeps a file descriptor that only `rte_kni_init` sets, and a list of the
interfaces there are. The one caller of `rte_kni_init` that a program can have without
calling it itself is the net_kni driver, when EAL probes its devices.
-/

namespace KniLibrary

open CString

def rteKniNamesize : Nat := 16

/-- `is_kni_initialized` belongs to the net_kni driver. -/
structure KniLib where
  kniFd : Int
  isKniInitialized : Nat
  kniList : List CStr

/-- Before EAL starts; `others` are the interfaces of other processes on the same
shared configuration. -/
def KniLib.initial (others : List CStr) : KniLib := ⟨-1, 0, others⟩

/-- `iovaOk`: the kernel is at least 4.10, or the IOVA mode is PA. -/
def rteKniInit (iovaOk : Bool) (openRet : Int) (lib : KniLib) : Int × KniLib :=
  if ¬ iovaOk then (-1, lib)
  else if lib.kniFd < 0 then
    if openRet < 0 then (-1, { lib with kniFd := openRet })
    else (0, { lib with kniFd := openRet })
  else (0, lib)

def rteKniClose (lib : KniLib) : KniLib :=
  if lib.kniFd < 0 then lib else { lib with kniFd := -1 }

/-- A `--vdev net_kni` that EAL probes: whether its arguments are valid, what opening
`/dev/kni` returns, whether an Ethernet device can be allocated for it. -/
structure KniProbe where
  argsOk : Bool
  openRet : Int
  allocated : Bool

/-- `kni_init` of the driver. -/
def kniInit (iovaOk : Bool) (openRet : Int) (lib : KniLib) : Int × KniLib :=
  let (ret, lib) := if lib.isKniInitialized = 0 then rteKniInit iovaOk openRet lib else (0, lib)
  if ret < 0 then (ret, lib)
  else (0, { lib with isKniInitialized := lib.isKniInitialized + 1 })

/-- A secondary process attaches to the device without initialising the library. -/
def ethKniProbe (primary iovaOk : Bool) (lib : KniLib) (p : KniProbe) : KniLib :=
  if ¬ primary then lib
  else if ¬ p.argsOk then lib
  else
    let (ret, lib) := kniInit iovaOk p.openRet lib
    if ret < 0 then lib
    else if p.allocated then lib
    else
      let lib := { lib with isKniInitialized := lib.isKniInitialized - 1 }
      if lib.isKniInitialized = 0 then rteKniClose lib else lib

/-- What `rte_kni_alloc` is given of the interface to make. -/
structure RteKniConf where
  name : CStr
  forceBind : Bool
  groupId : UInt16
  mbufSize : Nat

/-- What the reservations and the ioctl of `rte_kni_alloc` return. -/
structure AllocEnv where
  zmallocTailqEntry : Bool
  zmallocKni : Bool
  memzoneReserve : Fin 7 → Bool
  ioctlCreate : Int

/-- All of them succeed. -/
structure AllocEnv.Succeeds (env : AllocEnv) : Prop where
  zmallocTailqEntry : env.zmallocTailqEntry = true
  zmallocKni : env.zmallocKni = true
  memzoneReserve : ∀ i, env.memzoneReserve i = true
  ioctlCreate : 0 ≤ env.ioctlCreate

/-- `__rte_kni_get`. -/
def rteKniGet (lib : KniLib) (name : CStr) : Bool :=
  lib.kniList.any fun n => strncmp name n rteKniNamesize = 0

/-- Whether an interface is returned. Names are cut to what the field holds. -/
def rteKniAlloc (env : AllocEnv) (pktmbufPool : Bool) (conf : RteKniConf) (lib : KniLib) :
    Bool × KniLib :=
  if ¬ pktmbufPool ∨ conf.name = [] then (false, lib)
  else if lib.kniFd < 0 then (false, lib)
  else if rteKniGet lib conf.name then (false, lib)
  else if ¬ env.zmallocTailqEntry then (false, lib)
  else if ¬ env.zmallocKni then (false, lib)
  else if ¬ ∀ i, env.memzoneReserve i then (false, lib)
  else if env.ioctlCreate < 0 then (false, lib)
  else (true, { lib with kniList := lib.kniList ++ [conf.name.take (rteKniNamesize - 1)] })

theorem rteKniAlloc_iff {env : AllocEnv} (succeeds : env.Succeeds) (conf : RteKniConf)
    (lib : KniLib) :
    (rteKniAlloc env true conf lib).1 = true ↔
      conf.name ≠ [] ∧ 0 ≤ lib.kniFd ∧ rteKniGet lib conf.name = false := by
  have ioctl : ¬ env.ioctlCreate < 0 := by
    have := succeeds.ioctlCreate
    omega
  simp only [rteKniAlloc, not_true, false_or, succeeds.zmallocTailqEntry, succeeds.zmallocKni,
    succeeds.memzoneReserve, implies_true, if_false, ioctl]
  split
  · simp [*]
  · split
    · rename_i closed
      simp only [Bool.false_eq_true, false_iff, not_and]
      intro _ opened
      omega
    · split
      · simp [*]
      · simp [*]
        omega

/-- An interface is made and its name noted, or nothing changes. -/
theorem rteKniAlloc_cases (env : AllocEnv) (pool : Bool) (conf : RteKniConf) (lib : KniLib) :
    rteKniAlloc env pool conf lib = (false, lib) ∨
    rteKniAlloc env pool conf lib =
      (true, { lib with kniList := lib.kniList ++ [conf.name.take (rteKniNamesize - 1)] }) := by
  unfold rteKniAlloc
  split_ifs <;> simp

theorem rteKniGet_eq_false (lib : KniLib) (name : CStr) :
    rteKniGet lib name = false ↔ ∀ n ∈ lib.kniList, strncmp name n rteKniNamesize ≠ 0 := by
  simp [rteKniGet]

/-! ## Probing -/

/-- A probe after which the library stays initialised. -/
def Initialises (primary iovaOk : Bool) (p : KniProbe) : Prop :=
  primary = true ∧ iovaOk = true ∧ p.argsOk = true ∧ p.allocated = true

instance (primary iovaOk : Bool) (p : KniProbe) : Decidable (Initialises primary iovaOk p) :=
  inferInstanceAs (Decidable (_ ∧ _))

/-- The descriptor is open as long as some device counts on it. -/
def Counted (lib : KniLib) : Prop := 0 ≤ lib.kniFd ↔ 0 < lib.isKniInitialized

/-- `kni_init` fails only where the library cannot be initialised at all. -/
theorem kniInit_cases (iovaOk : Bool) {openRet : Int} {lib : KniLib} (opens : 0 ≤ openRet)
    (counted : Counted lib) :
    (iovaOk = false ∧ lib.isKniInitialized = 0 ∧ kniInit iovaOk openRet lib = (-1, lib)) ∨
    ((iovaOk = true ∨ 0 < lib.isKniInitialized) ∧ ∃ fd, 0 ≤ fd ∧
      kniInit iovaOk openRet lib =
        (0, ⟨fd, lib.isKniInitialized + 1, lib.kniList⟩)) := by
  have shut : ¬ openRet < 0 := by omega
  by_cases first : lib.isKniInitialized = 0
  · have closed : lib.kniFd < 0 := by
      have := counted.not
      omega
    cases iovaOk with
    | false => exact Or.inl ⟨rfl, first, by simp [kniInit, first, rteKniInit]⟩
    | true =>
      exact Or.inr ⟨Or.inl rfl, openRet, opens, by simp [kniInit, first, rteKniInit, closed, shut]⟩
  · have opened : 0 ≤ lib.kniFd := counted.mpr (Nat.pos_of_ne_zero first)
    exact Or.inr ⟨Or.inr (Nat.pos_of_ne_zero first), lib.kniFd, opened, by simp [kniInit, first]⟩

theorem ethKniProbe_spec (primary iovaOk : Bool) {lib : KniLib} {p : KniProbe}
    (opens : 0 ≤ p.openRet) (counted : Counted lib) :
    let lib' := ethKniProbe primary iovaOk lib p
    Counted lib' ∧ lib'.kniList = lib.kniList ∧
      (0 < lib'.isKniInitialized ↔
        0 < lib.isKniInitialized ∨ Initialises primary iovaOk p) := by
  cases hprimary : primary with
  | false => simp [ethKniProbe, Initialises, counted]
  | true =>
    cases hargs : p.argsOk with
    | false => simp [ethKniProbe, Initialises, hargs, counted]
    | true =>
      rcases kniInit_cases iovaOk opens counted with ⟨hiova, _, heq⟩ | ⟨ready, fd, hfd, heq⟩
      · subst hiova
        simp [ethKniProbe, Initialises, hargs, heq, counted]
      · cases hallocated : p.allocated with
        | true =>
          simp only [ethKniProbe, Initialises, hargs, heq, hallocated]
          refine ⟨iff_of_true hfd (Nat.succ_pos _), rfl, ?_⟩
          simpa using ready.symm
        | false =>
          by_cases last : lib.isKniInitialized = 0
          · -- no device is left that needs the descriptor
            have shut : ¬ fd < 0 := by omega
            simp [ethKniProbe, Initialises, hargs, heq, hallocated, last, rteKniClose, shut, Counted]
          · simp [ethKniProbe, Initialises, hargs, heq, hallocated, last, Counted, hfd,
              Nat.pos_of_ne_zero last]

/-- What EAL leaves of the library: it is initialised exactly if some probe saw to it. -/
theorem probes_initialise (primary iovaOk : Bool) (others : List CStr) (probes : List KniProbe)
    (opens : ∀ p ∈ probes, 0 ≤ p.openRet) :
    let lib := probes.foldl (ethKniProbe primary iovaOk) (.initial others)
    (0 ≤ lib.kniFd ↔ ∃ p ∈ probes, Initialises primary iovaOk p) ∧ lib.kniList = others := by
  have all : ∀ (probes : List KniProbe) (lib : KniLib), (∀ p ∈ probes, 0 ≤ p.openRet) →
      Counted lib →
      let lib' := probes.foldl (ethKniProbe primary iovaOk) lib
      Counted lib' ∧ lib'.kniList = lib.kniList ∧
        (0 < lib'.isKniInitialized ↔
          0 < lib.isKniInitialized ∨ ∃ p ∈ probes, Initialises primary iovaOk p) := by
    intro probes
    induction probes with
    | nil => exact fun lib _ counted => ⟨counted, rfl, by simp⟩
    | cons p probes ih =>
      intro lib opens counted
      obtain ⟨counted₁, list₁, up₁⟩ :=
        ethKniProbe_spec primary iovaOk (opens p List.mem_cons_self) counted
      obtain ⟨counted₂, list₂, up₂⟩ :=
        ih _ (fun q hq => opens q (List.mem_cons_of_mem _ hq)) counted₁
      refine ⟨counted₂, list₂.trans list₁, ?_⟩
      rw [List.foldl_cons, up₂, up₁, or_assoc, List.exists_mem_cons_iff]
  obtain ⟨counted, list, up⟩ := all probes (.initial others) opens (by
    simp [Counted, KniLib.initial])
  exact ⟨counted.trans (up.trans (by simp [KniLib.initial])), list⟩

end KniLibrary
