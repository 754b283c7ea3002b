import DpdkFilter.ParsedOptions
import DpdkFilter.Startup

/-!
# The checks between the command line and the loop

Every way `main` can take, and the conditions on the command line and on what the
environment answers under which it comes to launch the packet loop.
-/

namespace StartChecks

open CString FilterRules ForwardInterface LcoreMain Options ParsedOptions Startup

/-- How `main` ends where it stops before it looks at the ports. -/
def stopped (env : MainEnv) (status : Int) : Result :=
  ⟨[], if env.ealInit < 0 then .panic else .exit status⟩

/-- `main` from the count of the ports on. -/
def portChecked (env : MainEnv) (p : Parsed) (forwardIfname : CStr) : Result :=
  if rteEthDevCountAvail env.devices = 0 then ⟨[], .panic⟩
  else if p.portId.toNat ≥ rteEthDevCountAvail env.devices then ⟨[], .exit 1⟩
  else initialise env p forwardIfname

theorem main_error {env : MainEnv} {opts : List Opt} {status : Int}
    (h : parseOptions opts .initial = .error status) : main env opts = stopped env status := by
  rw [main, stopped, h]
  split <;> rfl

theorem main_incomplete {env : MainEnv} {opts : List Opt} {p : Parsed}
    (h : parseOptions opts .initial = .ok p)
    (incomplete : p.forwardIfname = none ∨ p.rules.args.length = 0) :
    main env opts = stopped env 1 := by
  rw [main, stopped, h]
  split
  · rfl
  · rcases incomplete with unnamed | unruled
    · simp only [unnamed]
    · simp only [unruled, if_true]
      cases p.forwardIfname <;> rfl

theorem main_portChecked {env : MainEnv} {opts : List Opt} {p : Parsed} {forwardIfname : CStr}
    (eal : 0 ≤ env.ealInit) (h : parseOptions opts .initial = .ok p)
    (named : p.forwardIfname = some forwardIfname) (ruled : p.rules.args.length ≠ 0) :
    main env opts = portChecked env p forwardIfname := by
  simp only [main, if_neg (Int.not_lt.mpr eal), h, named, if_neg ruled]
  rfl

/-- A complete command line takes `main` to the ports. -/
theorem main_accepted {env : MainEnv} {opts : List Opt} {forwardIfname : CStr}
    (eal : 0 ≤ env.ealInit) (accepted : Accepted opts) (some_ : ruleTexts opts ≠ [])
    (last : lastForward opts = some forwardIfname) :
    ∃ p, parseOptions opts .initial = .ok p ∧ Variables opts p ∧
      main env opts = portChecked env p forwardIfname := by
  obtain ⟨p, parsed⟩ := (parseOptions_iff opts).mpr accepted
  have vars := parseOptions_variables parsed
  exact ⟨p, parsed, vars,
    main_portChecked eal parsed (vars.forwardIfname.trans last) (vars.ruled some_)⟩

/-- Every way `main` takes. -/
theorem main_cases (env : MainEnv) (opts : List Opt) :
    (∃ status, (env.ealInit < 0 ∨ status = 1 ∨ status = 0 ∧ .help ∈ opts) ∧
      main env opts = stopped env status) ∨
    ∃ p forwardIfname, 0 ≤ env.ealInit ∧ parseOptions opts .initial = .ok p ∧
      p.forwardIfname = some forwardIfname ∧ p.rules.args.length ≠ 0 ∧
      main env opts = portChecked env p forwardIfname := by
  cases h : parseOptions opts .initial with
  | error status => exact Or.inl ⟨status, Or.inr (parseOptions_error h), main_error h⟩
  | ok p =>
    cases named : p.forwardIfname with
    | none => exact Or.inl ⟨1, Or.inr (Or.inl rfl), main_incomplete h (Or.inl named)⟩
    | some forwardIfname =>
      by_cases unruled : p.rules.args.length = 0
      · exact Or.inl ⟨1, Or.inr (Or.inl rfl), main_incomplete h (Or.inr unruled)⟩
      · by_cases eal : env.ealInit < 0
        · refine Or.inl ⟨1, Or.inl eal, ?_⟩
          rw [main, stopped, if_pos eal, if_pos eal]
        · have up : 0 ≤ env.ealInit := Int.not_lt.mp eal
          exact Or.inr ⟨p, forwardIfname, up, rfl, named, unruled,
            main_portChecked up h named unruled⟩

/-! ## From the ports to the loop -/

/-- `initialise` launches the loop exactly if the pool, the port and the forward
interface are there. -/
theorem initialise_iff (env : MainEnv) (p : Parsed) (forwardIfname : CStr) :
    (∃ g, (initialise env p forwardIfname).outcome = .launch g) ↔
      env.mbufPoolCreate = true ∧ (portInit env p.portId (ealKniLib env)).2.1 = 0 ∧
        (openForward env.forward forwardIfname).isSome := by
  have opened : ∀ kni calls,
      (∃ g, (openAndLaunch env p forwardIfname kni calls).outcome = .launch g) ↔
        (openForward env.forward forwardIfname).isSome := by
    intro kni calls
    constructor
    · rintro ⟨g, h⟩
      obtain ⟨d, hd, _⟩ := openAndLaunch_launch h
      exact hd ▸ rfl
    · intro h
      obtain ⟨d, hd⟩ := Option.isSome_iff_exists.mp h
      rw [openAndLaunch, hd]
      exact ⟨_, rfl⟩
  constructor
  · rintro ⟨g, h⟩
    obtain ⟨created, calls, lib, port, calls', launched⟩ := initialise_launch h
    refine ⟨created, ?_, (opened _ _).mp ⟨g, launched⟩⟩
    rw [port]
  · rintro ⟨created, port, up⟩
    unfold initialise
    generalize portInit env p.portId (ealKniLib env) = r at port ⊢
    obtain ⟨calls, ret, lib⟩ := r
    cases port
    simp only [created, not_true, ne_eq, if_false]
    cases p.kniName with
    | none => exact (opened _ _).mpr up
    | some kniName => exact (opened _ _).mpr up

theorem initialise_not_exit_zero (env : MainEnv) (p : Parsed) (forwardIfname : CStr) (status : Int)
    (h : (initialise env p forwardIfname).outcome = .exit status) : status = 1 := by
  have opened : ∀ kni calls,
      (openAndLaunch env p forwardIfname kni calls).outcome = .exit status → status = 1 := by
    intro kni calls ho
    unfold openAndLaunch at ho
    split at ho
    · cases ho
      rfl
    · cases ho
  unfold initialise at h
  split at h
  · cases h
  · dsimp only at h
    split at h
    · cases h
    · split at h
      · exact opened _ _ h
      · exact opened _ _ h

/-- `main` returns 0 before the loop for `-h` only. -/
theorem main_exit {env : MainEnv} {opts : List Opt} {status : Int}
    (h : (main env opts).outcome = .exit status) : status = 1 ∨ status = 0 ∧ .help ∈ opts := by
  rcases main_cases env opts with ⟨status', why, hm⟩ | ⟨p, forwardIfname, _, _, _, _, hm⟩
  · rw [hm, stopped] at h
    dsimp only at h
    split at h
    · cases h
    · rename_i eal
      cases h
      exact why.resolve_left eal
  · rw [hm, portChecked] at h
    split at h
    · cases h
    · split at h
      · cases h
        exact Or.inl rfl
      · exact Or.inl (initialise_not_exit_zero env p forwardIfname status h)

/-- What has to be so for the loop to be launched. -/
structure Passes (env : MainEnv) (opts : List Opt) : Prop where
  eal : 0 ≤ env.ealInit
  accepted : Accepted opts
  ruled : ruleTexts opts ≠ []
  forward : ∃ forwardIfname, lastForward opts = some forwardIfname ∧
    (openForward env.forward forwardIfname).isSome
  port : (chosenPort opts).toNat < rteEthDevCountAvail env.devices
  pool : env.mbufPoolCreate = true
  portInit : (portInit env (chosenPort opts) (ealKniLib env)).2.1 = 0

theorem launches_iff (env : MainEnv) (opts : List Opt) :
    (∃ g, (main env opts).outcome = .launch g) ↔ Passes env opts := by
  constructor
  · rintro ⟨g, h⟩
    rcases main_cases env opts with ⟨status, _, hm⟩ | ⟨p, forwardIfname, eal, parsed, named, ruled, hm⟩
    · rw [hm, stopped] at h
      dsimp only at h
      split at h <;> cases h
    · rw [hm, portChecked] at h
      split at h
      · cases h
      · split at h
        · cases h
        · rename_i below
          have vars := parseOptions_variables parsed
          obtain ⟨pool, port, up⟩ := (initialise_iff env p forwardIfname).mp ⟨g, h⟩
          rw [vars.rules_length] at ruled
          rw [vars.portId] at below port
          exact ⟨eal, (parseOptions_iff opts).mp ⟨p, parsed⟩,
            fun none => ruled (by rw [none]; rfl),
            ⟨forwardIfname, vars.forwardIfname.symm.trans named, up⟩, Nat.not_le.mp below,
            pool, port⟩
  · rintro ⟨eal, accepted, ruled, ⟨forwardIfname, last, up⟩, port, pool, portInit⟩
    obtain ⟨p, _, vars, hm⟩ := main_accepted eal accepted ruled last
    rw [hm, portChecked, vars.portId, if_neg (by omega), if_neg (by omega)]
    rw [← vars.portId] at portInit
    exact (initialise_iff env p forwardIfname).mpr ⟨pool, portInit, up⟩

end StartChecks
