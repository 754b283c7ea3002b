import DpdkFilter.Options

/-!
# The option loop as a whole

Which command lines the loop accepts, and what its variables hold after them: the last
`-i` and `-f`, and one entry for each rule option in the order they were given.
-/

namespace ParsedOptions

open CString FilterRules Options

def interfaceText : Opt → Option CStr
  | .interface optarg => some optarg
  | _ => none

def forwardText : Opt → Option CStr
  | .forward optarg => some optarg
  | _ => none

def kniText : Opt → Option CStr
  | .kni optarg => some optarg
  | _ => none

/-- The argument of a rule option, with the rule type the option stands for. -/
def ruleText : Opt → Option (UInt8 × CStr)
  | .dst optarg => some (0, optarg)
  | .src optarg => some (1, optarg)
  | _ => none

def Known : Opt → Prop
  | .help => False
  | .unknown => False
  | _ => True

def lastInterface (opts : List Opt) : Option CStr := (opts.filterMap interfaceText).getLast?

def lastForward (opts : List Opt) : Option CStr := (opts.filterMap forwardText).getLast?

def ruleTexts (opts : List Opt) : List (UInt8 × CStr) := opts.filterMap ruleText

def readRule (t : UInt8 × CStr) : Option FilterRuleArg := parseIpPort t.1 t.2

def readPort (optarg : CStr) : UInt16 := toUint16 (atoi optarg)

/-- The port an option list leaves in `port_id`. -/
def chosenPort (opts : List Opt) : UInt16 := ((lastInterface opts).map readPort).getD 0

/-- The last option of a kind is the last of the rest, else the first option. -/
theorem last_cons {α : Type} (text : Opt → Option α) (opt : Opt) (opts : List Opt) :
    ((opt :: opts).filterMap text).getLast? = (opts.filterMap text).getLast?.or (text opt) := by
  cases given : text opt with
  | none => rw [List.filterMap_cons_none given, Option.or_none]
  | some t =>
    rw [List.filterMap_cons_some given, List.getLast?_cons]
    cases (opts.filterMap text).getLast? <;> rfl

theorem last_mem {α : Type} {text : Opt → Option α} {opts : List Opt} {t : α}
    (h : (opts.filterMap text).getLast? = some t) : ∃ opt ∈ opts, text opt = some t :=
  List.mem_filterMap.mp (List.mem_of_getLast? h)

theorem last_exists {α : Type} {text : Opt → Option α} {opts : List Opt} {opt : Opt} {t : α}
    (given : opt ∈ opts) (h : text opt = some t) :
    ∃ last, (opts.filterMap text).getLast? = some last :=
  ⟨_, List.getLast?_eq_some_getLast (List.ne_nil_of_mem (List.mem_filterMap.mpr ⟨opt, given, h⟩))⟩

theorem lastInterface_mem {opts : List Opt} {optarg : CStr} (h : lastInterface opts = some optarg) :
    .interface optarg ∈ opts := by
  obtain ⟨opt, given, same⟩ := last_mem h
  cases opt with
  | interface optarg' =>
    cases same
    exact given
  | _ => cases same

theorem lastInterface_exists {opts : List Opt} {optarg : CStr} (h : .interface optarg ∈ opts) :
    ∃ inUse, lastInterface opts = some inUse :=
  last_exists h rfl

theorem lastKni_eq (opts : List Opt) (name : Option CStr) :
    lastKni opts name = ((opts.filterMap kniText).getLast?).or name := by
  induction opts generalizing name with
  | nil => rfl
  | cons opt opts ih =>
    rw [last_cons, Option.or_assoc, ← ih]
    cases opt <;> rfl

theorem lastKni_mem {opts : List Opt} {optarg : CStr} (h : lastKni opts none = some optarg) :
    .kni optarg ∈ opts := by
  rw [lastKni_eq, Option.or_none] at h
  obtain ⟨opt, given, same⟩ := last_mem h
  cases opt with
  | kni optarg' =>
    cases same
    exact given
  | _ => cases same

theorem lastKni_exists {opts : List Opt} {optarg : CStr} (h : .kni optarg ∈ opts) :
    ∃ inUse, lastKni opts none = some inUse := by
  simp only [lastKni_eq, Option.or_none]
  exact last_exists h rfl

theorem ruleTexts_cons (opt : Opt) (opts : List Opt) :
    ruleTexts (opt :: opts) = (ruleText opt).toList ++ ruleTexts opts := by
  cases opt <;> rfl

/-! ## One turn -/

theorem ruleOption_ok {ruleType : UInt8} {p q : Parsed} {optarg : CStr}
    (h : ruleOption ruleType p optarg = .ok q) :
    ∃ a, parseIpPort ruleType optarg = some a ∧ q.portId = p.portId ∧
      q.forwardIfname = p.forwardIfname ∧ q.rules.args = p.rules.args ++ [a] := by
  unfold ruleOption at h
  split at h
  · split at h
    · cases h
    · rename_i a read
      cases h
      exact ⟨a, read, rfl, rfl, rfl⟩
  · cases h

/-- What a turn that goes on does to the variables. -/
structure Turn (opt : Opt) (p q : Parsed) : Prop where
  known : Known opt
  portId : q.portId = ((interfaceText opt).map readPort).getD p.portId
  forwardIfname : q.forwardIfname = (forwardText opt).or p.forwardIfname
  rules : ∃ added, q.rules.args = p.rules.args ++ added ∧
    (ruleText opt).toList.map readRule = added.map some

theorem parseOption_ok {opt : Opt} {p q : Parsed} (h : parseOption p opt = .ok q) :
    Turn opt p q := by
  have rule : ∀ ruleType optarg, ruleOption ruleType p optarg = .ok q →
      q.portId = p.portId ∧ q.forwardIfname = p.forwardIfname ∧
      ∃ added, q.rules.args = p.rules.args ++ added ∧
        [readRule (ruleType, optarg)] = added.map some := by
    intro ruleType optarg hr
    obtain ⟨a, read, port, forward, rules⟩ := ruleOption_ok hr
    exact ⟨port, forward, [a], rules, congrArg (fun r => [r]) read⟩
  have none_added : p.rules.args = p.rules.args ++ [] := (List.append_nil _).symm
  cases opt with
  | interface optarg =>
    cases h
    exact ⟨trivial, rfl, rfl, [], none_added, rfl⟩
  | forward optarg =>
    cases h
    exact ⟨trivial, rfl, rfl, [], none_added, rfl⟩
  | dst optarg =>
    obtain ⟨port, forward, rules⟩ := rule 0 optarg h
    exact ⟨trivial, port, forward, rules⟩
  | src optarg =>
    obtain ⟨port, forward, rules⟩ := rule 1 optarg h
    exact ⟨trivial, port, forward, rules⟩
  | kni optarg =>
    cases h
    exact ⟨trivial, rfl, rfl, [], none_added, rfl⟩
  | help => cases h
  | unknown => cases h

/-- An option the loop knows stops it only by a text it cannot read or by a full array. -/
theorem parseOption_exists {opt : Opt} {p : Parsed} (known : Known opt)
    (readable : ∀ t ∈ ruleText opt, (readRule t).isSome)
    (room : p.rules.args.length + (ruleText opt).toList.length ≤ maxFilterRules) :
    ∃ q, parseOption p opt = .ok q := by
  have rule : ∀ ruleType optarg, (readRule (ruleType, optarg)).isSome →
      p.rules.args.length + 1 ≤ maxFilterRules → ∃ q, ruleOption ruleType p optarg = .ok q := by
    intro ruleType optarg read space
    obtain ⟨a, ha⟩ := Option.isSome_iff_exists.mp read
    refine ⟨{ p with rules := p.rules.push a space }, ?_⟩
    change parseIpPort ruleType optarg = some a at ha
    rw [ruleOption, dif_pos (show p.rules.args.length < maxFilterRules from space), ha]
  cases opt with
  | interface optarg => exact ⟨_, rfl⟩
  | forward optarg => exact ⟨_, rfl⟩
  | dst optarg => exact rule 0 optarg (readable _ rfl) room
  | src optarg => exact rule 1 optarg (readable _ rfl) room
  | kni optarg => exact ⟨_, rfl⟩
  | help => exact known.elim
  | unknown => exact known.elim

theorem parseOption_error {opt : Opt} {p : Parsed} {status : Int}
    (h : parseOption p opt = .error status) : status = 1 ∨ status = 0 ∧ opt = .help := by
  have rule : ∀ ruleType optarg, ruleOption ruleType p optarg = .error status → status = 1 := by
    intro ruleType optarg hr
    unfold ruleOption at hr
    split at hr
    · split at hr
      · cases hr
        rfl
      · cases hr
    · cases hr
      rfl
  cases opt with
  | interface optarg => cases h
  | forward optarg => cases h
  | dst optarg => exact Or.inl (rule 0 optarg h)
  | src optarg => exact Or.inl (rule 1 optarg h)
  | kni optarg => cases h
  | help =>
    cases h
    exact Or.inr ⟨rfl, rfl⟩
  | unknown =>
    cases h
    exact Or.inl rfl

/-! ## The loop -/

structure Run (opts : List Opt) (p q : Parsed) : Prop where
  known : ∀ opt ∈ opts, Known opt
  portId : q.portId = ((lastInterface opts).map readPort).getD p.portId
  forwardIfname : q.forwardIfname = (lastForward opts).or p.forwardIfname
  rules : ∃ added, q.rules.args = p.rules.args ++ added ∧
    (ruleTexts opts).map readRule = added.map some

theorem Turn.run {opt : Opt} {opts : List Opt} {p q r : Parsed} (turn : Turn opt p q)
    (rest : Run opts q r) : Run (opt :: opts) p r where
  known := List.forall_mem_cons.mpr ⟨turn.known, rest.known⟩
  portId := by
    rw [rest.portId, turn.portId, lastInterface, lastInterface, last_cons]
    cases (opts.filterMap interfaceText).getLast? <;> rfl
  forwardIfname := by
    rw [rest.forwardIfname, turn.forwardIfname, lastForward, lastForward, last_cons,
      Option.or_assoc]
  rules := by
    obtain ⟨first, hq, readFirst⟩ := turn.rules
    obtain ⟨more, hr, readMore⟩ := rest.rules
    refine ⟨first ++ more, ?_, ?_⟩
    · rw [hr, hq, List.append_assoc]
    · rw [ruleTexts_cons, List.map_append, readFirst, readMore, List.map_append]

theorem parseOptions_ok {opts : List Opt} {p q : Parsed} (h : parseOptions opts p = .ok q) :
    Run opts p q := by
  induction opts generalizing p with
  | nil =>
    cases h
    exact ⟨by simp, rfl, rfl, [], (List.append_nil _).symm, rfl⟩
  | cons opt opts ih =>
    rw [parseOptions] at h
    split at h
    · cases h
    · rename_i p' hp
      exact (parseOption_ok hp).run (ih h)

/-- As many entries are added as there are rule options. -/
theorem Run.rules_length {opts : List Opt} {p q : Parsed} (run : Run opts p q) :
    q.rules.args.length = p.rules.args.length + (ruleTexts opts).length := by
  obtain ⟨added, hq, read⟩ := run.rules
  have same := congrArg List.length read
  rw [List.length_map, List.length_map] at same
  rw [hq, List.length_append, same]

theorem parseOptions_exists {opts : List Opt} {p : Parsed} (known : ∀ opt ∈ opts, Known opt)
    (readable : ∀ t ∈ ruleTexts opts, (readRule t).isSome)
    (room : p.rules.args.length + (ruleTexts opts).length ≤ maxFilterRules) :
    ∃ q, parseOptions opts p = .ok q := by
  induction opts generalizing p with
  | nil => exact ⟨p, rfl⟩
  | cons opt opts ih =>
    rw [ruleTexts_cons] at readable room
    rw [List.length_append] at room
    obtain ⟨p', hp⟩ := parseOption_exists (known opt List.mem_cons_self)
      (fun t ht => readable t (List.mem_append_left _ (Option.mem_toList.mpr ht)))
      (p := p) (by omega)
    obtain ⟨first, hq, read⟩ := (parseOption_ok hp).rules
    have count := congrArg List.length read
    rw [List.length_map, List.length_map] at count
    obtain ⟨q, rest⟩ := ih (p := p') (fun o ho => known o (List.mem_cons_of_mem _ ho))
      (fun t ht => readable t (List.mem_append_right _ ht))
      (by rw [hq, List.length_append]; omega)
    exact ⟨q, by rw [parseOptions, hp]; exact rest⟩

theorem parseOptions_error {opts : List Opt} {p : Parsed} {status : Int}
    (h : parseOptions opts p = .error status) : status = 1 ∨ status = 0 ∧ .help ∈ opts := by
  induction opts generalizing p with
  | nil => cases h
  | cons opt opts ih =>
    rw [parseOptions] at h
    split at h
    · rename_i stop
      cases h
      rcases parseOption_error stop with one | ⟨zero, rfl⟩
      · exact Or.inl one
      · exact Or.inr ⟨zero, List.mem_cons_self⟩
    · rcases ih h with one | ⟨zero, help⟩
      · exact Or.inl one
      · exact Or.inr ⟨zero, List.mem_cons_of_mem _ help⟩

/-- What the loop accepts from the start of `main`. -/
structure Accepted (opts : List Opt) : Prop where
  known : ∀ opt ∈ opts, Known opt
  readable : ∀ t ∈ ruleTexts opts, (readRule t).isSome
  few : (ruleTexts opts).length ≤ maxFilterRules

theorem parseOptions_iff (opts : List Opt) :
    (∃ p, parseOptions opts .initial = .ok p) ↔ Accepted opts := by
  constructor
  · rintro ⟨p, h⟩
    have run := parseOptions_ok h
    have count := run.rules_length
    obtain ⟨added, _, read⟩ := run.rules
    refine ⟨run.known, ?_, ?_⟩
    · intro t ht
      have mem := List.mem_map_of_mem (f := readRule) ht
      rw [read] at mem
      obtain ⟨a, _, ha⟩ := List.mem_map.mp mem
      exact ha ▸ rfl
    · have bound := p.rules.count_le
      simp only [Parsed.initial, List.length_nil, Nat.zero_add] at count
      omega
  · rintro ⟨known, readable, few⟩
    exact parseOptions_exists known readable (by simpa [Parsed.initial] using few)

/-- The variables after an accepted command line. -/
structure Variables (opts : List Opt) (p : Parsed) : Prop where
  portId : p.portId = chosenPort opts
  forwardIfname : p.forwardIfname = lastForward opts
  kniName : p.kniName = lastKni opts none
  rules : (ruleTexts opts).map readRule = p.rules.args.map some

theorem parseOptions_variables {opts : List Opt} {p : Parsed}
    (h : parseOptions opts .initial = .ok p) : Variables opts p := by
  have run := parseOptions_ok h
  obtain ⟨added, hp, read⟩ := run.rules
  constructor
  · exact run.portId
  · exact run.forwardIfname.trans (Option.or_none)
  · exact parseOptions_kniName h
  · rw [read, hp]
    rfl

theorem Variables.rules_length {opts : List Opt} {p : Parsed} (vars : Variables opts p) :
    p.rules.args.length = (ruleTexts opts).length := by
  simpa using (congrArg List.length vars.rules).symm

theorem Variables.ruled {opts : List Opt} {p : Parsed} (vars : Variables opts p)
    (some_ : ruleTexts opts ≠ []) : p.rules.args.length ≠ 0 := by
  rw [vars.rules_length]
  exact fun zero => some_ (List.length_eq_zero_iff.mp zero)

theorem Variables.mem_rules {opts : List Opt} {p : Parsed} (vars : Variables opts p)
    {a : FilterRuleArg} : a ∈ p.rules.args ↔ ∃ t ∈ ruleTexts opts, readRule t = some a := by
  rw [← List.mem_map, vars.rules, List.mem_map]
  constructor
  · intro ha
    exact ⟨a, ha, rfl⟩
  · rintro ⟨b, hb, same⟩
    exact Option.some.inj same ▸ hb

/-! ## The array -/

/-- An option that writes `filter_rules_args` writes one of its elements. -/
theorem written_below {opt : Opt} {p q : Parsed} (h : parseOption p opt = .ok q)
    (written : q.rules.args ≠ p.rules.args) : p.rules.args.length < maxFilterRules := by
  obtain ⟨added, hq, _⟩ := (parseOption_ok h).rules
  have bound := q.rules.count_le
  rw [hq, List.length_append] at bound
  have some_ : added ≠ [] := by
    rintro rfl
    exact written (by rw [hq, List.append_nil])
  have pos := List.length_pos_iff.mpr some_
  omega

end ParsedOptions
