import DpdkFilter.CString
import DpdkFilter.FilterRules

/-!
# The command line

What `main` makes of its options. `getopt_long` is known by its results, one `Opt` for
each; the C library's number and address readers follow their documentation.
-/

namespace Options

open ByteOrder CString FilterRules Mbuf

/-! ## The C library -/

def isSpace (c : Char) : Bool := c.toNat = 32 ∨ 9 ≤ c.toNat ∧ c.toNat ≤ 13

def isDigit (c : Char) : Bool := 48 ≤ c.toNat ∧ c.toNat ≤ 57

/-- The value of the leading digits, continued from `n`. -/
def digitsFrom (n : Nat) : CStr → Nat
  | [] => n
  | c :: s => if isDigit c then digitsFrom (n * 10 + (c.toNat - 48)) s else n

/-- `strtol` to the base 10: blanks, a sign, digits; values outside `long` are its ends. -/
def strtol (s : CStr) : Int :=
  match s.dropWhile isSpace with
  | [] => 0
  | c :: rest =>
    if c = '-' then max (-(digitsFrom 0 rest)) (-2 ^ 63)
    else if c = '+' then min (digitsFrom 0 rest) (2 ^ 63 - 1)
    else min (digitsFrom 0 (c :: rest)) (2 ^ 63 - 1)

/-- The conversion of `strtol` to `int`. -/
def atoi (s : CStr) : Int := (strtol s).bmod (2 ^ 32)

/-- The cast to `uint16_t`. -/
def toUint16 (i : Int) : UInt16 := UInt16.ofNat (i % 65536).toNat

/-- What stands before and after the first colon. -/
def strchrColon (s : CStr) : Option (CStr × CStr) :=
  match s.span (· ≠ ':') with
  | (_, []) => none
  | (before, _ :: after) => some (before, after)

/-- One number of a dotted quad: no sign, no blank, no leading zero, at most 255. -/
def octet (s : CStr) : Option UInt8 :=
  if s ≠ [] ∧ s.all isDigit ∧ (s.length = 1 ∨ s.head? ≠ some '0') ∧ digitsFrom 0 s ≤ 255 then
    some (UInt8.ofNat (digitsFrom 0 s))
  else none

/-- `inet_pton(AF_INET, ..)`: the word whose bytes in memory are the four numbers. -/
def inetPton (s : CStr) : Option UInt32 :=
  match (s.splitOn '.').map octet with
  | [some a, some b, some c, some d] => some (le32 a b c d)
  | _ => none

/-! ## The option loop -/

/-- A result of `getopt_long`; `unknown` is what falls to the default case. -/
inductive Opt where
  | interface (optarg : CStr)
  | forward (optarg : CStr)
  | dst (optarg : CStr)
  | src (optarg : CStr)
  | kni (optarg : CStr)
  | help
  | unknown

/-- `filter_rules_args` with `filter_rule_count`: as many entries as have been filled. -/
structure RuleArgs where
  args : List FilterRuleArg
  count_le : args.length ≤ maxFilterRules

/-- The next entry is written only where the array has room. -/
def RuleArgs.push (r : RuleArgs) (a : FilterRuleArg) (room : r.args.length < maxFilterRules) :
    RuleArgs where
  args := r.args ++ [a]
  count_le := by
    rw [List.length_append, List.length_singleton]
    exact room

structure Parsed where
  portId : UInt16
  forwardIfname : Option CStr
  rules : RuleArgs
  kniName : Option CStr

/-- The variables before the loop. -/
def Parsed.initial : Parsed where
  portId := 0
  forwardIfname := none
  rules := ⟨[], Nat.zero_le _⟩
  kniName := none

/-- An `ip:port` argument. -/
def parseIpPort (ruleType : UInt8) (optarg : CStr) : Option FilterRuleArg :=
  match strchrColon optarg with
  | none => none
  | some (before, after) =>
    match inetPton before with
    | none => none
    | some addr =>
      let portVal := atoi after
      if portVal ≤ 0 ∨ portVal > 65535 then none
      else some { ruleType := ruleType, ip := addr, port := rteCpuToBe16 (toUint16 portVal) }

/-- The case of `-d` and that of `-s`, which differ in the type they store. -/
def ruleOption (ruleType : UInt8) (p : Parsed) (optarg : CStr) : Except Int Parsed :=
  if room : p.rules.args.length < maxFilterRules then
    match parseIpPort ruleType optarg with
    | none => .error 1
    | some a => .ok { p with rules := p.rules.push a room }
  else .error 1

def dstOption (p : Parsed) (optarg : CStr) : Except Int Parsed := ruleOption 0 p optarg

def srcOption (p : Parsed) (optarg : CStr) : Except Int Parsed := ruleOption 1 p optarg

/-- One turn of the `while` loop; an error is the status `main` returns. -/
def parseOption (p : Parsed) : Opt → Except Int Parsed
  | .interface optarg => .ok { p with portId := toUint16 (atoi optarg) }
  | .forward optarg => .ok { p with forwardIfname := some optarg }
  | .dst optarg => dstOption p optarg
  | .src optarg => srcOption p optarg
  | .kni optarg => .ok { p with kniName := some optarg }
  | .help => .error 0
  | .unknown => .error 1

def parseOptions : List Opt → Parsed → Except Int Parsed
  | [], p => .ok p
  | opt :: opts, p =>
    match parseOption p opt with
    | .error status => .error status
    | .ok p => parseOptions opts p

/-- The last argument given to `-k`. -/
def lastKni : List Opt → Option CStr → Option CStr
  | [], name => name
  | .kni optarg :: opts, _ => lastKni opts (some optarg)
  | _ :: opts, name => lastKni opts name

theorem parseOption_kniName {p q : Parsed} {opt : Opt} (h : parseOption p opt = .ok q) :
    q.kniName = match (opt : Opt) with
      | .kni optarg => some optarg
      | _ => p.kniName := by
  have rule : ∀ ruleType optarg, ruleOption ruleType p optarg = .ok q →
      q.kniName = p.kniName := by
    intro ruleType optarg hr
    unfold ruleOption at hr
    split at hr
    · split at hr
      · cases hr
      · cases hr
        rfl
    · cases hr
  cases opt with
  | interface optarg => cases h; rfl
  | forward optarg => cases h; rfl
  | dst optarg => exact rule 0 optarg h
  | src optarg => exact rule 1 optarg h
  | kni optarg => cases h; rfl
  | help => cases h
  | unknown => cases h

/-- A later `-k` replaces an earlier one. -/
theorem parseOptions_kniName {opts : List Opt} {p q : Parsed} (h : parseOptions opts p = .ok q) :
    q.kniName = lastKni opts p.kniName := by
  induction opts generalizing p with
  | nil =>
    cases h
    rfl
  | cons opt opts ih =>
    simp only [parseOptions] at h
    split at h
    · cases h
    · rename_i p' hp
      rw [ih h, parseOption_kniName hp]
      cases opt <;> rfl

end Options
