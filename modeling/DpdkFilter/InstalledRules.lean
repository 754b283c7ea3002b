import DpdkFilter.IpPort
import DpdkFilter.KniRequested
import DpdkFilter.StartChecks

/-!
# The installed rules and the command line

A packet is compared with the rules word by word, as the words stand in memory. The
verdict is that of the texts of the `-d` and `-s` options, in whatever order they came.
-/

namespace InstalledRules

open ByteOrder CString Decimal FilterRules IpPort LcoreMain Mbuf Options ParsedOptions
open KniRequested StartChecks Startup

/-! ## One argument -/

/-- The argument is the address and the port whose bytes on the wire are these. -/
def Names (optarg : CStr) (a b c d p0 p1 : UInt8) : Prop :=
  ∃ port, optarg = ipPort a b c d port ∧ Numeral port ∧ value port = be16 p0 p1

/-- `a.b.c.d:p` with a decimal `p` from 1 to 65535. -/
def WellFormedArg (optarg : CStr) : Prop :=
  ∃ a b c d port, optarg = ipPort a b c d port ∧ Numeral port ∧ 1 ≤ value port ∧
    value port ≤ 65535

/-- An option with an argument; that of a rule option has the form documented for it. -/
def WellFormed : Opt → Prop
  | .dst optarg => WellFormedArg optarg
  | .src optarg => WellFormedArg optarg
  | .help => False
  | .unknown => False
  | _ => True

/-- The word that the option parser stores for a numeral from 1 to 65535. -/
def storedPort (port : CStr) : UInt16 := rteCpuToBe16 (UInt16.ofNat (value port))

theorem toUint16_atoi {port : CStr} (h : Numeral port) (small : value port ≤ 65535) :
    toUint16 (atoi port) = UInt16.ofNat (value port) := by
  apply UInt16.toNat_inj.mp
  rw [(toUint16_atoi_iff h).mpr (by omega), UInt16.toNat_ofNat', Nat.mod_eq_of_lt (by omega)]

theorem readRule_wellFormed (ruleType a b c d : UInt8) {port : CStr} (h : Numeral port)
    (low : 1 ≤ value port) (high : value port ≤ 65535) :
    readRule (ruleType, ipPort a b c d port) =
      some { ruleType := ruleType, ip := le32 a b c d, port := storedPort port } := by
  have number := atoi_small h (by omega)
  apply parseIpPort_iff.mpr
  refine ⟨a, b, c, d, port, rfl, by omega, by omega, ?_⟩
  rw [toUint16_atoi h high]
  rfl

theorem storedPort_toNat {port : CStr} (high : value port ≤ 65535) :
    (rteBeToCpu16 (storedPort port)).toNat = value port := by
  simp only [storedPort, rteCpuToBe16, rteBeToCpu16, bswap16_toNat, UInt16.toNat_ofNat',
    Nat.mod_eq_of_lt (show value port < 2 ^ 16 by omega)]
  omega

/-- `htons` and the wire agree: the stored word is the loaded one if the numbers are equal. -/
theorem storedPort_eq_iff {port : CStr} (high : value port ≤ 65535) (p0 p1 : UInt8) :
    storedPort port = le16 p0 p1 ↔ value port = be16 p0 p1 := by
  have whole : (bswap16 (storedPort port)).toNat = value port := storedPort_toNat high
  rw [eq_le16_iff, whole]

/-- A well-formed argument names what its stored words are compared equal with. -/
theorem stored_iff_names {ruleType : UInt8} {optarg : CStr} (formed : WellFormedArg optarg)
    (a b c d p0 p1 : UInt8) :
    (∃ arg, readRule (ruleType, optarg) = some arg ∧ arg.ip = le32 a b c d ∧
      arg.port = le16 p0 p1) ↔ Names optarg a b c d p0 p1 := by
  obtain ⟨a', b', c', d', port, rfl, numeral, low, high⟩ := formed
  have read := readRule_wellFormed ruleType a' b' c' d' numeral low high
  constructor
  · rintro ⟨arg, same, ip, wire⟩
    cases read.symm.trans same
    obtain ⟨rfl, rfl, rfl, rfl⟩ := le32_inj ip
    exact ⟨port, rfl, numeral, (storedPort_eq_iff high p0 p1).mp wire⟩
  · rintro ⟨port', same, _, number⟩
    obtain ⟨ip, rfl⟩ := ipPort_inj same
    exact ⟨_, read, ip, (storedPort_eq_iff high p0 p1).mpr number⟩

/-! ## The whole command line -/

/-- The words of a packet that an option is about: destination for `-d`, source for `-s`. -/
def Asks (srcIp dstIp : UInt32) (srcPort dstPort : UInt16) (opts : List Opt)
    (holds : CStr → UInt8 → UInt32 → UInt16 → Prop) : Prop :=
  (∃ optarg, .dst optarg ∈ opts ∧ holds optarg 0 dstIp dstPort) ∨
    ∃ optarg, .src optarg ∈ opts ∧ holds optarg 1 srcIp srcPort

/-- The argument is stored as a rule with these words. -/
def Stored (optarg : CStr) (ruleType : UInt8) (ip : UInt32) (port : UInt16) : Prop :=
  ∃ arg, readRule (ruleType, optarg) = some arg ∧ arg.ip = ip ∧ arg.port = port

theorem mem_ruleTexts {opts : List Opt} {t : UInt8 × CStr} :
    t ∈ ruleTexts opts ↔ (t.1 = 0 ∧ .dst t.2 ∈ opts) ∨ (t.1 = 1 ∧ .src t.2 ∈ opts) := by
  rw [ruleTexts, List.mem_filterMap]
  constructor
  · rintro ⟨opt, mem, text⟩
    cases opt with
    | dst optarg =>
      cases text
      exact Or.inl ⟨rfl, mem⟩
    | src optarg =>
      cases text
      exact Or.inr ⟨rfl, mem⟩
    | _ => cases text
  · obtain ⟨ruleType, optarg⟩ := t
    rintro (⟨rfl, mem⟩ | ⟨rfl, mem⟩)
    · exact ⟨_, mem, rfl⟩
    · exact ⟨_, mem, rfl⟩

section
variable {optarg : CStr} {arg : FilterRuleArg} (srcIp dstIp : UInt32) (srcPort dstPort : UInt16)

/-- The entry of a `-d` option looks at the destination. -/
theorem matches_dst (read : readRule (0, optarg) = some arg) :
    arg.entry.key.Matches srcIp dstIp srcPort dstPort ↔ arg.ip = dstIp ∧ arg.port = dstPort := by
  obtain ⟨_, _, _, _, _, _, _, _, rfl⟩ := parseIpPort_iff.mp read
  exact Iff.rfl

/-- The entry of a `-s` option looks at the source. -/
theorem matches_src (read : readRule (1, optarg) = some arg) :
    arg.entry.key.Matches srcIp dstIp srcPort dstPort ↔ arg.ip = srcIp ∧ arg.port = srcPort := by
  obtain ⟨_, _, _, _, _, _, _, _, rfl⟩ := parseIpPort_iff.mp read
  exact Iff.rfl

end

/-- The verdict over the installed rules, in terms of the options. -/
theorem verdict_iff_stored {env : MainEnv} {opts : List Opt} {g : Globals}
    (calloc : ∀ i, env.calloc i = true) (h : (main env opts).outcome = .launch g)
    (srcIp dstIp : UInt32) (srcPort dstPort : UInt16) :
    matchFilterRule srcIp dstIp srcPort dstPort g.filterRules = true ↔
      Asks srcIp dstIp srcPort dstPort opts Stored := by
  obtain ⟨p, _, _, _, _, parsed, _, _, _, _, rfl⟩ := main_launch h
  have vars := parseOptions_variables parsed
  rw [match_installed_iff env.calloc calloc]
  constructor
  · rintro ⟨arg, mem, matched⟩
    obtain ⟨⟨ruleType, optarg⟩, text, read⟩ := vars.mem_rules.mp mem
    rcases mem_ruleTexts.mp text with ⟨kind, given⟩ | ⟨kind, given⟩
    · cases kind
      exact Or.inl ⟨optarg, given, arg, read, (matches_dst _ _ _ _ read).mp matched⟩
    · cases kind
      exact Or.inr ⟨optarg, given, arg, read, (matches_src _ _ _ _ read).mp matched⟩
  · rintro (⟨optarg, given, arg, read, same⟩ | ⟨optarg, given, arg, read, same⟩)
    · refine ⟨arg, vars.mem_rules.mpr ⟨(0, optarg), ?_, read⟩, ?_⟩
      · exact mem_ruleTexts.mpr (Or.inl ⟨rfl, given⟩)
      · exact (matches_dst _ _ _ _ read).mpr same
    · refine ⟨arg, vars.mem_rules.mpr ⟨(1, optarg), ?_, read⟩, ?_⟩
      · exact mem_ruleTexts.mpr (Or.inr ⟨rfl, given⟩)
      · exact (matches_src _ _ _ _ read).mpr same

theorem wellFormed_known {opt : Opt} (formed : WellFormed opt) : Known opt := by
  cases opt with
  | help => exact formed.elim
  | unknown => exact formed.elim
  | _ => trivial

theorem wellFormed_readable {opts : List Opt} (formed : ∀ opt ∈ opts, WellFormed opt) :
    ∀ t ∈ ruleTexts opts, (readRule t).isSome := by
  have reads : ∀ ruleType optarg, WellFormedArg optarg → (readRule (ruleType, optarg)).isSome := by
    rintro ruleType optarg ⟨a, b, c, d, port, rfl, numeral, low, high⟩
    rw [readRule_wellFormed ruleType a b c d numeral low high]
    rfl
  rintro ⟨ruleType, optarg⟩ text
  rcases mem_ruleTexts.mp text with ⟨_, given⟩ | ⟨_, given⟩
  · exact reads ruleType optarg (formed _ given)
  · exact reads ruleType optarg (formed _ given)

theorem wellFormed_accepted {opts : List Opt} (formed : ∀ opt ∈ opts, WellFormed opt)
    (few : (ruleTexts opts).length ≤ maxFilterRules) : Accepted opts where
  known := fun opt given => wellFormed_known (formed opt given)
  readable := wellFormed_readable formed
  few := few

/-- On well-formed options what is stored is what is named. -/
theorem asks_stored_iff {opts : List Opt} (formed : ∀ opt ∈ opts, WellFormed opt)
    (s0 s1 s2 s3 d0 d1 d2 d3 sp0 sp1 dp0 dp1 : UInt8) :
    Asks (le32 s0 s1 s2 s3) (le32 d0 d1 d2 d3) (le16 sp0 sp1) (le16 dp0 dp1) opts Stored ↔
      (∃ optarg, .dst optarg ∈ opts ∧ Names optarg d0 d1 d2 d3 dp0 dp1) ∨
        ∃ optarg, .src optarg ∈ opts ∧ Names optarg s0 s1 s2 s3 sp0 sp1 := by
  constructor
  · rintro (⟨optarg, given, stored⟩ | ⟨optarg, given, stored⟩)
    · exact Or.inl ⟨optarg, given, (stored_iff_names (formed _ given) _ _ _ _ _ _).mp stored⟩
    · exact Or.inr ⟨optarg, given, (stored_iff_names (formed _ given) _ _ _ _ _ _).mp stored⟩
  · rintro (⟨optarg, given, named⟩ | ⟨optarg, given, named⟩)
    · exact Or.inl ⟨optarg, given, (stored_iff_names (formed _ given) _ _ _ _ _ _).mpr named⟩
    · exact Or.inr ⟨optarg, given, (stored_iff_names (formed _ given) _ _ _ _ _ _).mpr named⟩

/-- The same `-d` and the same `-s` arguments, in any order and any number. -/
structure SameRules (opts opts' : List Opt) : Prop where
  dst : ∀ optarg, .dst optarg ∈ opts ↔ .dst optarg ∈ opts'
  src : ∀ optarg, .src optarg ∈ opts ↔ .src optarg ∈ opts'

theorem SameRules.of_perm {opts opts' : List Opt} (perm : opts.Perm opts') :
    SameRules opts opts' where
  dst _ := perm.mem_iff
  src _ := perm.mem_iff

/-- Giving an option once more changes no set of arguments. -/
theorem SameRules.of_repeat {opt : Opt} {opts : List Opt} (mem : opt ∈ opts) :
    SameRules opts (opt :: opts) := by
  have same (o : Opt) : o ∈ opts ↔ o ∈ opt :: opts := by
    rw [List.mem_cons]
    constructor
    · exact Or.inr
    · rintro (rfl | h)
      · exact mem
      · exact h
  exact ⟨fun _ => same _, fun _ => same _⟩

theorem SameRules.asks_iff {opts opts' : List Opt} (same : SameRules opts opts')
    {srcIp dstIp : UInt32} {srcPort dstPort : UInt16} :
    Asks srcIp dstIp srcPort dstPort opts Stored ↔ Asks srcIp dstIp srcPort dstPort opts' Stored := by
  simp only [Asks, same.dst, same.src]

/-- What the rules of a command line come to. -/
structure RulesKept (env : MainEnv) (opts : List Opt) : Prop where
  accepted : ruleTexts opts ≠ [] → (ruleTexts opts).length ≤ maxFilterRules →
    lastForward opts ≠ none → 0 ≤ env.ealInit →
    ∃ p forwardIfname, parseOptions opts .initial = .ok p ∧
      p.rules.args.length = (ruleTexts opts).length ∧
      main env opts = portChecked env p forwardIfname
  verdict : ∀ g, (main env opts).outcome = .launch g →
    ∀ s0 s1 s2 s3 d0 d1 d2 d3 sp0 sp1 dp0 dp1 : UInt8,
      matchFilterRule (le32 s0 s1 s2 s3) (le32 d0 d1 d2 d3) (le16 sp0 sp1) (le16 dp0 dp1)
          g.filterRules = true ↔
        (∃ optarg, .dst optarg ∈ opts ∧ Names optarg d0 d1 d2 d3 dp0 dp1) ∨
          ∃ optarg, .src optarg ∈ opts ∧ Names optarg s0 s1 s2 s3 sp0 sp1
  unchanged : ∀ g, (main env opts).outcome = .launch g →
    ∀ env' opts' g', (∀ i, env'.calloc i = true) → SameRules opts opts' →
      (main env' opts').outcome = .launch g' → ∀ srcIp dstIp srcPort dstPort,
        matchFilterRule srcIp dstIp srcPort dstPort g'.filterRules =
          matchFilterRule srcIp dstIp srcPort dstPort g.filterRules
  tooMany : maxFilterRules < (ruleTexts opts).length → main env opts = stopped env 1
  noRule : ruleTexts opts = [] → main env opts = stopped env 1
  -- an entry is written at the index that `filter_rule_count` has before it
  inside : ∀ before opt after p q, opts = before ++ opt :: after →
    parseOptions before .initial = .ok p → parseOption p opt = .ok q →
      q.rules.args ≠ p.rules.args → p.rules.args.length < maxFilterRules

/-- The rules in force are those of the command line. -/
theorem rules_kept (env : MainEnv) (opts : List Opt) (calloc : ∀ i, env.calloc i = true)
    (formed : ∀ opt ∈ opts, WellFormed opt) : RulesKept env opts where
  accepted := by
    intro some_ few named eal
    obtain ⟨forwardIfname, last⟩ := Option.ne_none_iff_exists'.mp named
    obtain ⟨p, parsed, vars, hm⟩ :=
      main_accepted eal (wellFormed_accepted formed few) some_ last
    exact ⟨p, forwardIfname, parsed, vars.rules_length, hm⟩
  verdict := by
    intro g launched s0 s1 s2 s3 d0 d1 d2 d3 sp0 sp1 dp0 dp1
    rw [verdict_iff_stored calloc launched]
    exact asks_stored_iff formed s0 s1 s2 s3 d0 d1 d2 d3 sp0 sp1 dp0 dp1
  unchanged := by
    intro g launched env' opts' g' calloc' same launched' srcIp dstIp srcPort dstPort
    apply Bool.eq_iff_iff.mpr
    rw [verdict_iff_stored calloc' launched', verdict_iff_stored calloc launched]
    exact same.asks_iff.symm
  tooMany := by
    intro many
    cases parsed : parseOptions opts .initial with
    | ok p =>
      have few := ((parseOptions_iff opts).mp ⟨p, parsed⟩).few
      omega
    | error status =>
      rcases parseOptions_error parsed with rfl | ⟨_, help⟩
      · exact main_error parsed
      · exact (formed _ help).elim
  noRule := by
    intro unruled
    have few : (ruleTexts opts).length ≤ maxFilterRules := by
      rw [unruled]
      exact Nat.zero_le _
    obtain ⟨p, parsed⟩ := (parseOptions_iff opts).mpr (wellFormed_accepted formed few)
    refine main_incomplete parsed (Or.inr ?_)
    rw [(parseOptions_variables parsed).rules_length, unruled]
    rfl
  inside := by
    intro before opt after p q _ _ turn written
    exact written_below turn written

/-- The usage text's own example, and a packet of the connection it names. -/
theorem usageExample_rules_kept :
    RulesKept (allSucceed []) usageExample ∧
      matchFilterRule (le32 192 168 182 1) (le32 10 0 0 1) (le16 0x22 0x30) (le16 0x04 0xd2)
        (usageGlobals false).filterRules = true := by
  have written : ['1', '9', '2', '.', '1', '6', '8', '.', '1', '8', '2', '.', '1', ':', '8', '7', '5',
      '2'] = ipPort 192 168 182 1 ['8', '7', '5', '2'] := rfl
  have kept : RulesKept (allSucceed []) usageExample := by
    refine rules_kept (allSucceed []) usageExample (fun _ => rfl) ?_
    intro opt given
    simp only [usageExample, List.mem_cons, List.not_mem_nil, or_false] at given
    rcases given with rfl | rfl | rfl | rfl
    · trivial
    · trivial
    · exact ⟨192, 168, 182, 1, ['8', '7', '5', '2'], written, by decide, by decide, by decide⟩
    · trivial
  have launched : (main (allSucceed []) usageExample).outcome = .launch (usageGlobals false) := rfl
  refine ⟨kept, (kept.verdict _ launched _ _ _ _ _ _ _ _ _ _ _ _).mpr (Or.inr ?_)⟩
  refine ⟨ipPort 192 168 182 1 ['8', '7', '5', '2'], ?_, ['8', '7', '5', '2'], rfl, by decide,
    by decide⟩
  rw [← written]
  exact List.mem_cons_of_mem _ (List.mem_cons_of_mem _ List.mem_cons_self)

end InstalledRules
