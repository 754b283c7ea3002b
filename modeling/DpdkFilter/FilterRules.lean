import DpdkFilter.Mbuf

/-!
# The filter rules

Rules live in a linked list, newest first, and are compared word by word with
what the packet holds. Addresses and ports are kept in network byte order, so no
comparison swaps bytes.
-/

namespace FilterRules

open ByteOrder Mbuf

structure FilterKey where
  ruleType : UInt8
  ip : UInt32
  port : UInt16

structure FilterRuleEntry where
  key : FilterKey
  action : UInt8

/-- One element of `filter_rules_args`, as the option parser leaves it. -/
structure FilterRuleArg where
  ruleType : UInt8
  ip : UInt32
  port : UInt16

/-- `MAX_FILTER_RULES`: `main` exits when an option would add one more. -/
def maxFilterRules : Nat := 64

/-- `calloc` tells whether the allocation succeeds. -/
def addFilterRule (calloc : Bool) (filterRules : List FilterRuleEntry)
    (ruleType : UInt8) (ip : UInt32) (port : UInt16) : Int × List FilterRuleEntry :=
  if calloc then
    (0, { key := { ruleType := ruleType, ip := ip, port := port }, action := 1 } :: filterRules)
  else (-1, filterRules)

/-- The installation loop of `main`, which ignores what `add_filter_rule` returns. -/
def installFilterRules (calloc : Nat → Bool) :
    Nat → List FilterRuleArg → List FilterRuleEntry → List FilterRuleEntry
  | _, [], filterRules => filterRules
  | i, a :: args, filterRules =>
    installFilterRules calloc (i + 1) args
      (addFilterRule (calloc i) filterRules a.ruleType a.ip a.port).2

def matchFilterRule (srcIp dstIp : UInt32) (srcPort dstPort : UInt16) :
    List FilterRuleEntry → Bool
  | [] => false
  | rule :: next =>
    if rule.key.ruleType = 0 then
      if rule.key.ip = dstIp ∧ rule.key.port = dstPort then true
      else matchFilterRule srcIp dstIp srcPort dstPort next
    else
      if rule.key.ip = srcIp ∧ rule.key.port = srcPort then true
      else matchFilterRule srcIp dstIp srcPort dstPort next

/-- The words a key is compared with: destination for type 0, source otherwise. -/
def FilterKey.Matches (k : FilterKey) (srcIp dstIp : UInt32) (srcPort dstPort : UInt16) : Prop :=
  if k.ruleType = 0 then k.ip = dstIp ∧ k.port = dstPort else k.ip = srcIp ∧ k.port = srcPort

instance (k : FilterKey) (srcIp dstIp : UInt32) (srcPort dstPort : UInt16) :
    Decidable (k.Matches srcIp dstIp srcPort dstPort) :=
  inferInstanceAs (Decidable (if k.ruleType = 0 then k.ip = dstIp ∧ k.port = dstPort
    else k.ip = srcIp ∧ k.port = srcPort))

theorem matchFilterRule_cons (srcIp dstIp : UInt32) (srcPort dstPort : UInt16)
    (rule : FilterRuleEntry) (next : List FilterRuleEntry) :
    matchFilterRule srcIp dstIp srcPort dstPort (rule :: next) =
      (decide (rule.key.Matches srcIp dstIp srcPort dstPort) ||
        matchFilterRule srcIp dstIp srcPort dstPort next) := by
  by_cases ht : rule.key.ruleType = 0
  · by_cases hm : rule.key.ip = dstIp ∧ rule.key.port = dstPort <;>
      simp [matchFilterRule, FilterKey.Matches, ht, hm]
  · by_cases hm : rule.key.ip = srcIp ∧ rule.key.port = srcPort <;>
      simp [matchFilterRule, FilterKey.Matches, ht, hm]

theorem matchFilterRule_iff (srcIp dstIp : UInt32) (srcPort dstPort : UInt16)
    (rules : List FilterRuleEntry) :
    matchFilterRule srcIp dstIp srcPort dstPort rules = true ↔
      ∃ r ∈ rules, r.key.Matches srcIp dstIp srcPort dstPort := by
  induction rules with
  | nil => simp [matchFilterRule]
  | cons rule next ih => simp [matchFilterRule_cons, ih]

/-- The entry a successful `add_filter_rule` links in. -/
def FilterRuleArg.entry (a : FilterRuleArg) : FilterRuleEntry where
  key := { ruleType := a.ruleType, ip := a.ip, port := a.port }
  action := 1

theorem installFilterRules_eq (calloc : Nat → Bool) (ok : ∀ i, calloc i = true) (i : Nat)
    (args : List FilterRuleArg) (rules : List FilterRuleEntry) :
    installFilterRules calloc i args rules = (args.map FilterRuleArg.entry).reverse ++ rules := by
  induction args generalizing i rules with
  | nil => rfl
  | cons a args ih =>
    simp only [installFilterRules, ih, addFilterRule, ok, if_true, List.map_cons,
      List.reverse_cons, List.append_assoc, List.singleton_append]
    rfl

/-- The order of installation does not matter to the verdict: some argument decides. -/
theorem match_installed_iff (calloc : Nat → Bool) (ok : ∀ i, calloc i = true)
    (args : List FilterRuleArg) (srcIp dstIp : UInt32) (srcPort dstPort : UInt16) :
    matchFilterRule srcIp dstIp srcPort dstPort (installFilterRules calloc 0 args []) = true ↔
      ∃ a ∈ args, a.entry.key.Matches srcIp dstIp srcPort dstPort := by
  rw [matchFilterRule_iff, installFilterRules_eq calloc ok]
  simp

end FilterRules
