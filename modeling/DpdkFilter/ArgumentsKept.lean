import DpdkFilter.KniRequested
import DpdkFilter.InstalledRules
import Mathlib.Data.List.Forall2

/-!
# Arguments that are not used as they are written

`atoi` reads what it can of any text and keeps 32 bits of it, the port is cut to 16 bits
without a check, and an interface name to 15 characters. This is exactly when it shows.
-/

namespace ArgumentsKept

open ByteOrder CString Decimal FilterRules InstalledRules IpPort KniLibrary KniRequested LcoreMain
open Mbuf Options ParsedOptions StartChecks Startup

/-! ## What the arguments denote -/

def InterfaceDenotes (optarg : CStr) (portId : UInt16) : Prop :=
  Numeral optarg ∧ portId.toNat = value optarg

/-- The stored rule is the one written: a dotted quad, a colon, the digits of a port. -/
def RuleDenotes (t : UInt8 × CStr) (arg : FilterRuleArg) : Prop :=
  ∃ a b c d port, t.2 = ipPort a b c d port ∧ Numeral port ∧ 1 ≤ value port ∧
    value port ≤ 65535 ∧ arg.ruleType = t.1 ∧ arg.ip = le32 a b c d ∧
    (rteBeToCpu16 arg.port).toNat = value port

/-- The name in the configuration that `init_kni` hands to `rte_kni_alloc`. -/
def handedName (opts : List Opt) (portId : UInt16) : Option CStr :=
  (lastKni opts none).map fun kniName => (kniConf portId kniName).name

/-- The loop uses what its arguments denote. Of repeated `-i` and `-k` options the last
is in use. -/
structure Used (opts : List Opt) (p : Parsed) (g : Globals) : Prop where
  interface : ∀ optarg, lastInterface opts = some optarg → InterfaceDenotes optarg g.portId
  rules : List.Forall₂ RuleDenotes (ruleTexts opts) p.rules.args
  kni : ∀ optarg, lastKni opts none = some optarg → handedName opts g.portId = some optarg

/-- The same, with the `-i` and `-k` arguments that a later one replaces. -/
structure AllUsed (opts : List Opt) (p : Parsed) (g : Globals) : Prop where
  interface : ∀ optarg, .interface optarg ∈ opts → InterfaceDenotes optarg g.portId
  rules : List.Forall₂ RuleDenotes (ruleTexts opts) p.rules.args
  kni : ∀ optarg, .kni optarg ∈ opts → handedName opts g.portId = some optarg

/-- A start that goes wrong says so in its status; a launch uses the arguments as `used`
tells. For `-h`, which returns 0, no argument is used. -/
def Kept (used : List Opt → Parsed → Globals → Prop) (env : MainEnv) (opts : List Opt) : Prop :=
  match (main env opts).outcome with
  | .exit status => status ≠ 0 ∨ .help ∈ opts
  | .panic => True
  | .launch g => ∃ p, parseOptions opts .initial = .ok p ∧ used opts p g

/-! ## When it does -/

/-- Digits only, and a value that 16 bits hold. -/
def Plain (text : CStr) : Prop := Numeral text ∧ value text ≤ 65535

/-- The arguments in use lose nothing where they are read. -/
structure PlainArguments (opts : List Opt) : Prop where
  interface : ∀ optarg, lastInterface opts = some optarg → Plain optarg
  rules : ∀ t ∈ ruleTexts opts, ∀ before port, strchrColon t.2 = some (before, port) → Plain port
  kni : ∀ optarg, lastKni opts none = some optarg → optarg.length ≤ rteKniNamesize - 1

/-- No option is replaced by one that says something else. -/
structure NoneReplaced (opts : List Opt) : Prop where
  interface : ∀ optarg inUse, .interface optarg ∈ opts → lastInterface opts = some inUse →
    Numeral optarg ∧ value optarg = value inUse
  kni : ∀ optarg inUse, .kni optarg ∈ opts → lastKni opts none = some inUse → optarg = inUse

theorem interface_denotes_iff (optarg : CStr) :
    InterfaceDenotes optarg (readPort optarg) ↔ Plain optarg := by
  constructor
  · rintro ⟨numeral, same⟩
    exact ⟨numeral, Nat.le_of_lt_succ ((toUint16_atoi_iff numeral).mp same)⟩
  · rintro ⟨numeral, small⟩
    exact ⟨numeral, (toUint16_atoi_iff numeral).mpr (Nat.lt_succ_of_le small)⟩

theorem rule_denotes_iff {t : UInt8 × CStr} {arg : FilterRuleArg} (read : readRule t = some arg) :
    RuleDenotes t arg ↔ ∀ before port, strchrColon t.2 = some (before, port) → Plain port := by
  obtain ⟨a, b, c, d, port, text, low, high, rfl⟩ := parseIpPort_iff.mp read
  rw [text, strchrColon_ipPort]
  constructor
  · rintro ⟨_, _, _, _, port', same, numeral, _, small, _⟩ before port'' split
    cases split
    obtain ⟨_, rfl⟩ := ipPort_inj (text.symm.trans same)
    exact ⟨numeral, small⟩
  · intro plain
    obtain ⟨numeral, small⟩ := plain _ port rfl
    rw [atoi_small numeral (by omega)] at low
    refine ⟨a, b, c, d, port, text, numeral, by omega, small, rfl, rfl, ?_⟩
    rw [toUint16_atoi numeral small]
    exact storedPort_toNat small

/-- A relation between texts and the entries read from them, text by text. -/
theorem forall₂_iff {texts : List (UInt8 × CStr)} {args : List FilterRuleArg}
    {denotes : UInt8 × CStr → FilterRuleArg → Prop} {plain : UInt8 × CStr → Prop}
    (each : ∀ t arg, readRule t = some arg → (denotes t arg ↔ plain t))
    (reads : texts.map readRule = args.map some) :
    List.Forall₂ denotes texts args ↔ ∀ t ∈ texts, plain t := by
  induction texts generalizing args with
  | nil =>
    cases args with
    | nil => simp
    | cons arg args => cases reads
  | cons t texts ih =>
    cases args with
    | nil => cases reads
    | cons arg args =>
      rw [List.map_cons, List.map_cons, List.cons.injEq] at reads
      rw [List.forall₂_cons, each t arg reads.1, ih reads.2, List.forall_mem_cons]

theorem handedName_iff {opts : List Opt} {optarg : CStr} (portId : UInt16)
    (inUse : lastKni opts none = some optarg) :
    handedName opts portId = some optarg ↔ optarg.length ≤ rteKniNamesize - 1 := by
  rw [handedName, inUse, Option.map_some, Option.some.injEq]
  exact List.take_eq_self_iff optarg

section
variable {opts : List Opt} {p : Parsed} {g : Globals}

theorem used_iff (vars : Variables opts p) (port : g.portId = p.portId) :
    Used opts p g ↔ PlainArguments opts := by
  have rules : List.Forall₂ RuleDenotes (ruleTexts opts) p.rules.args ↔ ∀ t ∈ ruleTexts opts,
      ∀ before port, strchrColon t.2 = some (before, port) → Plain port :=
    forall₂_iff (fun _ _ read => rule_denotes_iff read) vars.rules
  have chosen : ∀ optarg, lastInterface opts = some optarg → g.portId = readPort optarg := by
    intro optarg inUse
    rw [port, vars.portId, chosenPort, inUse]
    rfl
  constructor
  · intro used
    constructor
    · intro optarg inUse
      have denotes := used.interface optarg inUse
      rw [chosen optarg inUse] at denotes
      exact (interface_denotes_iff optarg).mp denotes
    · exact rules.mp used.rules
    · intro optarg inUse
      exact (handedName_iff g.portId inUse).mp (used.kni optarg inUse)
  · intro plain
    constructor
    · intro optarg inUse
      rw [chosen optarg inUse]
      exact (interface_denotes_iff optarg).mpr (plain.interface optarg inUse)
    · exact rules.mpr plain.rules
    · intro optarg inUse
      exact (handedName_iff g.portId inUse).mpr (plain.kni optarg inUse)

theorem allUsed_iff : AllUsed opts p g ↔ Used opts p g ∧ NoneReplaced opts := by
  constructor
  · intro all
    constructor
    · constructor
      · exact fun optarg inUse => all.interface optarg (lastInterface_mem inUse)
      · exact all.rules
      · exact fun optarg inUse => all.kni optarg (lastKni_mem inUse)
    · constructor
      · intro optarg last given inUse
        obtain ⟨numeral, port⟩ := all.interface optarg given
        exact ⟨numeral, port.symm.trans (all.interface last (lastInterface_mem inUse)).2⟩
      · intro optarg last given inUse
        have handed := all.kni optarg given
        rw [all.kni last (lastKni_mem inUse), Option.some.injEq] at handed
        exact handed.symm
  · rintro ⟨used, none⟩
    constructor
    · intro optarg given
      obtain ⟨last, inUse⟩ := lastInterface_exists given
      obtain ⟨numeral, same⟩ := none.interface optarg last given inUse
      exact ⟨numeral, (used.interface last inUse).2.trans same.symm⟩
    · exact used.rules
    · intro optarg given
      obtain ⟨last, inUse⟩ := lastKni_exists given
      rw [none.kni optarg last given inUse]
      exact used.kni last inUse

end

/-! ## Whole starts -/

/-- Where the loop is launched, keeping the arguments is a matter of the launch alone. -/
theorem kept_iff {env : MainEnv} {opts : List Opt} {used : List Opt → Parsed → Globals → Prop}
    {plain : Prop} (launched : ∀ p g, parseOptions opts .initial = .ok p → g.portId = p.portId →
      (used opts p g ↔ plain)) : Kept used env opts ↔ (Passes env opts → plain) := by
  rw [← launches_iff, Kept]
  generalize hm : (main env opts).outcome = outcome
  cases outcome with
  | exit status =>
    constructor
    · rintro _ ⟨g, h⟩
      cases h
    · intro _
      rcases main_exit hm with rfl | ⟨_, help⟩
      · exact Or.inl (by decide)
      · exact Or.inr help
  | panic =>
    constructor
    · rintro _ ⟨g, h⟩
      cases h
    · exact fun _ => trivial
  | launch g =>
    obtain ⟨p, _, _, _, _, parsed, _, _, _, _, same⟩ := main_launch hm
    have port : g.portId = p.portId := by rw [same]
    constructor
    · rintro ⟨q, parsed', h⟩ _
      cases parsed.symm.trans parsed'
      exact (launched p g parsed port).mp h
    · intro h
      exact ⟨p, parsed, (launched p g parsed port).mpr (h ⟨g, rfl⟩)⟩

theorem kept_used_iff (env : MainEnv) (opts : List Opt) :
    Kept Used env opts ↔ (Passes env opts → PlainArguments opts) := by
  apply kept_iff
  intro p g parsed port
  exact used_iff (parseOptions_variables parsed) port

theorem kept_allUsed_iff (env : MainEnv) (opts : List Opt) :
    Kept AllUsed env opts ↔ (Passes env opts → PlainArguments opts ∧ NoneReplaced opts) := by
  apply kept_iff
  intro p g parsed port
  rw [allUsed_iff, used_iff (parseOptions_variables parsed) port]

/-- The arguments in use are kept exactly if they are plain; those that are replaced are
kept too exactly if, moreover, they say the same as the ones in use. -/
theorem arguments_kept_iff (env : MainEnv) (opts : List Opt) :
    (Kept Used env opts ↔ (Passes env opts → PlainArguments opts)) ∧
      (Kept AllUsed env opts ↔ (Passes env opts → PlainArguments opts ∧ NoneReplaced opts)) :=
  ⟨kept_used_iff env opts, kept_allUsed_iff env opts⟩

/-- `-i 65536 -f ens35 -d 1.2.3.4:80`: the port opened is 0. -/
def wrappedPort : List Opt :=
  [.interface ['6', '5', '5', '3', '6'], .forward ['e', 'n', 's', '3', '5'],
    .dst ['1', '.', '2', '.', '3', '.', '4', ':', '8', '0']]

theorem wrappedPort_not_kept :
    ¬ Kept Used (allSucceed []) wrappedPort ∧ ¬ Kept AllUsed (allSucceed []) wrappedPort := by
  have passes : Passes (allSucceed []) wrappedPort := (launches_iff _ _).mp ⟨_, rfl⟩
  have notPlain : ¬ PlainArguments wrappedPort := by
    intro plain
    have small := (plain.interface ['6', '5', '5', '3', '6'] rfl).2
    exact absurd small (by decide)
  constructor
  · intro kept
    exact notPlain ((kept_used_iff _ _).mp kept passes)
  · intro kept
    exact notPlain ((kept_allUsed_iff _ _).mp kept passes).1

end ArgumentsKept
