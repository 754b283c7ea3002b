import DpdkFilter.KniRequested
import DpdkFilter.NextMember
import DpdkFilter.StartChecks

/-!
# The check of the port

`main` compares the port with the number of available ports, `port_init` asks whether it
is attached. The two together are right where the available ports have no hole.
-/

namespace PortCheck

open CString FilterRules KniLibrary KniRequested NextMember Options ParsedOptions StartChecks Startup

/-! ## The number of available ports -/

/-- An attached port of this owner. -/
def OwnedBy (devices : Devices) (ownerId portId : Nat) : Prop :=
  portId < rteMaxEthports ∧ (devices portId).map EthDevice.owner = some ownerId

instance (devices : Devices) (ownerId : Nat) : DecidablePred (OwnedBy devices ownerId) :=
  fun _ => inferInstanceAs (Decidable (_ ∧ _))

/-- Attached and unowned. -/
abbrev Usable (devices : Devices) (portId : Nat) : Prop := OwnedBy devices rteEthDevNoOwner portId

def Attached (devices : Devices) (portId : Nat) : Prop := (devices portId).isSome

def usablePorts (devices : Devices) : Finset Nat :=
  (Finset.Ico 0 rteMaxEthports).filter (Usable devices)

theorem OwnedBy.attached {devices : Devices} {ownerId portId : Nat}
    (h : OwnedBy devices ownerId portId) : Attached devices portId := by
  unfold Attached
  cases hd : devices portId with
  | none =>
    have owner := h.2
    rw [hd] at owner
    cases owner
  | some _ => rfl

theorem OwnedBy.valid {devices : Devices} {ownerId portId : Nat}
    (h : OwnedBy devices ownerId portId) : rteEthDevIsValidPort devices portId = true := by
  have there : devices portId ≠ none := Option.isSome_iff_ne_none.mp h.attached
  rw [rteEthDevIsValidPort, if_neg]
  rintro (outside | unused)
  · exact absurd h.1 (Nat.not_lt.mpr outside)
  · exact there (Option.isNone_iff_eq_none.mp unused)

theorem findNext_isNext (devices : Devices) {left portId : Nat}
    (all : portId + left = rteMaxEthports) :
    IsNext (Attached devices) rteMaxEthports portId (findNext devices left portId) := by
  induction left generalizing portId with
  | zero =>
    cases all
    exact IsNext.at_bound _ _
  | succ left ih =>
    rw [findNext]
    split
    · rename_i unused
      refine IsNext.skip ?_ (ih (by omega))
      rw [Attached, Option.isNone_iff_eq_none.mp unused]
      exact Bool.false_ne_true
    · rename_i used
      refine IsNext.here ?_ (by omega)
      rw [Attached, Option.isSome_iff_ne_none]
      exact fun none => used (Option.isNone_iff_eq_none.mpr none)

theorem rteEthFindNext_isNext (devices : Devices) {portId : Nat} (h : portId ≤ rteMaxEthports) :
    IsNext (Attached devices) rteMaxEthports portId (rteEthFindNext devices portId) :=
  findNext_isNext devices (Nat.add_sub_cancel' h)

theorem findNextOwnedBy_isNext (devices : Devices) (ownerId : Nat) {left portId : Nat}
    (h : portId ≤ rteMaxEthports) (enough : rteMaxEthports < portId + left) :
    IsNext (OwnedBy devices ownerId) rteMaxEthports portId
      (findNextOwnedBy devices ownerId left portId) := by
  induction left generalizing portId with
  | zero => omega
  | succ left ih =>
    have next := rteEthFindNext_isNext devices h
    have sub : ∀ i, OwnedBy devices ownerId i → Attached devices i := fun _ => OwnedBy.attached
    have ahead := next.le
    rw [findNextOwnedBy]
    split
    · rename_i other
      refine next.resume sub ?_ (ih other.1 (by omega))
      exact fun owned => other.2 owned.2
    · rename_i stops
      refine next.of_superset sub ?_
      intro lt
      refine ⟨lt, ?_⟩
      by_contra other
      exact stops ⟨lt, other⟩

theorem countAvail_eq (devices : Devices) {left from_ : Nat} (h : from_ ≤ rteMaxEthports)
    (enough : rteMaxEthports < from_ + left) :
    countAvail devices left from_ =
      ((Finset.Ico from_ rteMaxEthports).filter (Usable devices)).card := by
  induction left generalizing from_ with
  | zero => omega
  | succ left ih =>
    have next := findNextOwnedBy_isNext devices rteEthDevNoOwner h
      (show rteMaxEthports < from_ + (rteMaxEthports + 1) by omega)
    rw [countAvail, rteEthFindNextOwnedBy]
    generalize findNextOwnedBy devices rteEthDevNoOwner (rteMaxEthports + 1) from_ = q at next ⊢
    have ahead := next.le
    split
    · rename_i lt
      rw [ih lt (by omega), next.card_succ lt]
    · rename_i past
      have stop : q = rteMaxEthports := Nat.le_antisymm next.below (Nat.not_lt.mp past)
      rw [stop] at next
      rw [next.filter_empty, Finset.card_empty]

/-- `rte_eth_dev_count_avail` counts the attached ports that nobody owns. -/
theorem rteEthDevCountAvail_eq (devices : Devices) :
    rteEthDevCountAvail devices = (usablePorts devices).card :=
  countAvail_eq devices (Nat.zero_le _) (by omega)

/-! ## What `main` does with the port -/

/-- The port is all that can stop `main` before it configures it. -/
structure PortDecides (env : MainEnv) (opts : List Opt) : Prop where
  eal : 0 ≤ env.ealInit
  accepted : Accepted opts
  ruled : ruleTexts opts ≠ []
  forward : lastForward opts ≠ none
  pool : env.mbufPoolCreate = true

/-- The check lets through the usable ports and no others: it returns 1 for those, with no
port touched, and the port is never the cause of a panic. -/
structure CheckRight (env : MainEnv) (opts : List Opt) : Prop where
  configures : .rteEthDevInfoGet (chosenPort opts) ∈ (main env opts).calls ↔
    Usable env.devices (chosenPort opts).toNat
  refuses : ¬ Usable env.devices (chosenPort opts).toNat → main env opts = ⟨[], .exit 1⟩
  noPanic : main env opts ≠ ⟨[], .panic⟩

theorem initialise_invalid {env : MainEnv} {p : Parsed} (forwardIfname : CStr)
    (pool : env.mbufPoolCreate = true)
    (unused : rteEthDevIsValidPort env.devices p.portId.toNat ≠ true) :
    initialise env p forwardIfname = ⟨[], .panic⟩ := by
  have refused : portInit env p.portId (ealKniLib env) = ([], -1, ealKniLib env) := by
    rw [portInit, if_pos unused]
  simp [initialise, pool, refused]

theorem initialise_valid {env : MainEnv} {p : Parsed} (forwardIfname : CStr)
    (pool : env.mbufPoolCreate = true)
    (used : rteEthDevIsValidPort env.devices p.portId.toNat = true) :
    .rteEthDevInfoGet p.portId ∈ (initialise env p forwardIfname).calls := by
  have first : .rteEthDevInfoGet p.portId ∈ (portInit env p.portId (ealKniLib env)).1 := by
    rw [portInit, if_neg (not_not.mpr used)]
    dsimp only
    rw [callUntilFailure]
    split
    · exact List.mem_cons_self
    · exact List.mem_cons_self
  have opened : ∀ kni calls, .rteEthDevInfoGet p.portId ∈ calls →
      .rteEthDevInfoGet p.portId ∈ (openAndLaunch env p forwardIfname kni calls).calls := by
    intro kni calls mem
    unfold openAndLaunch
    split
    · exact mem
    · exact mem
  unfold initialise
  generalize portInit env p.portId (ealKniLib env) = r at first ⊢
  obtain ⟨calls, ret, lib⟩ := r
  simp only [pool, not_true, if_false]
  split
  · exact first
  · cases p.kniName with
    | none => exact opened _ _ first
    | some kniName => exact opened _ _ (List.mem_append_left _ first)

section
variable {env : MainEnv} {opts : List Opt}

theorem PortDecides.main_eq (decides : PortDecides env opts) :
    ∃ p forwardIfname, p.portId = chosenPort opts ∧
      main env opts = portChecked env p forwardIfname := by
  obtain ⟨forwardIfname, last⟩ := Option.ne_none_iff_exists'.mp decides.forward
  obtain ⟨p, _, vars, hm⟩ := main_accepted decides.eal decides.accepted decides.ruled last
  exact ⟨p, forwardIfname, vars.portId, hm⟩

/-- Where there is a usable port, three ways are open: an id past the count is refused, one
below it is configured if it is attached and else leads to a panic. -/
theorem PortDecides.main_cases (decides : PortDecides env opts)
    (some_ : ∃ portId, Usable env.devices portId) :
    ((usablePorts env.devices).card ≤ (chosenPort opts).toNat ∧ main env opts = ⟨[], .exit 1⟩) ∨
      ((chosenPort opts).toNat < (usablePorts env.devices).card ∧
        rteEthDevIsValidPort env.devices (chosenPort opts).toNat = true ∧
        .rteEthDevInfoGet (chosenPort opts) ∈ (main env opts).calls) ∨
      ((chosenPort opts).toNat < (usablePorts env.devices).card ∧
        rteEthDevIsValidPort env.devices (chosenPort opts).toNat ≠ true ∧
        main env opts = ⟨[], .panic⟩) := by
  obtain ⟨p, forwardIfname, port, hm⟩ := decides.main_eq
  obtain ⟨portId, usable⟩ := some_
  have counted : portId ∈ usablePorts env.devices :=
    Finset.mem_filter.mpr ⟨Finset.mem_Ico.mpr ⟨Nat.zero_le _, usable.1⟩, usable⟩
  have pos : 0 < (usablePorts env.devices).card := Finset.card_pos.mpr ⟨portId, counted⟩
  rw [portChecked, rteEthDevCountAvail_eq, if_neg (by omega)] at hm
  rw [← port]
  by_cases past : (usablePorts env.devices).card ≤ p.portId.toNat
  · rw [if_pos past] at hm
    exact Or.inl ⟨past, hm⟩
  · rw [if_neg past] at hm
    rw [hm]
    by_cases used : rteEthDevIsValidPort env.devices p.portId.toNat = true
    · exact Or.inr (Or.inl ⟨by omega, used, initialise_valid forwardIfname decides.pool used⟩)
    · exact Or.inr (Or.inr ⟨by omega, used, initialise_invalid forwardIfname decides.pool used⟩)

/-- The check is right about a port exactly if its id is below the number of usable ports
just when it is usable itself. -/
theorem checkRight_iff (decides : PortDecides env opts)
    (some_ : ∃ portId, Usable env.devices portId) :
    CheckRight env opts ↔
      ((chosenPort opts).toNat < (usablePorts env.devices).card ↔
        Usable env.devices (chosenPort opts).toNat) := by
  have ways := decides.main_cases some_
  constructor
  · intro right
    rcases ways with ⟨past, hm⟩ | ⟨below, _, called⟩ | ⟨_, _, hm⟩
    · refine iff_of_false (Nat.not_lt.mpr past) ?_
      intro usable
      have called := right.configures.mpr usable
      rw [hm] at called
      cases called
    · exact iff_of_true below (right.configures.mp called)
    · exact absurd hm right.noPanic
  · intro agree
    rcases ways with ⟨past, hm⟩ | ⟨below, _, called⟩ | ⟨below, unused, _⟩
    · have unusable : ¬ Usable env.devices (chosenPort opts).toNat :=
        fun usable => absurd (agree.mpr usable) (Nat.not_lt.mpr past)
      constructor
      · refine iff_of_false ?_ unusable
        rw [hm]
        exact List.not_mem_nil
      · exact fun _ => hm
      · rw [hm]
        intro h
        cases h
    · have usable := agree.mp below
      constructor
      · exact iff_of_true called usable
      · exact fun unusable => absurd usable unusable
      · intro hm
        rw [hm] at called
        cases called
    · exact absurd (agree.mp below).valid unused

end

/-- Over all ids, the check is right exactly on tables whose usable ports have no hole
before them. -/
theorem all_ids_right_iff (devices : Devices) :
    (∀ portId, portId < (usablePorts devices).card ↔ Usable devices portId) ↔
      ∀ i j, i < j → Usable devices j → Usable devices i :=
  lt_card_iff_member fun _ usable => usable.1

theorem usageExample_check_right : CheckRight (allSucceed []) usageExample := by
  refine (checkRight_iff ⟨by decide, ?_, by decide, by decide, rfl⟩ ⟨0, by decide⟩).mpr (by decide)
  exact (parseOptions_iff usageExample).mp ⟨_, rfl⟩

/-- `-i <id> -f ens35 -d 1.2.3.4:80`, the id of one digit. -/
def onPort (id : Char) : List Opt :=
  [.interface [id], .forward ['e', 'n', 's', '3', '5'],
    .dst ['1', '.', '2', '.', '3', '.', '4', ':', '8', '0']]

/-- Port 0 belongs to a failsafe device, which is port 1. -/
def failsafe (portId : Nat) : Option EthDevice :=
  if portId = 0 then some ⟨1, none⟩ else if portId = 1 then some ⟨rteEthDevNoOwner, none⟩ else none

/-- Port 0 has been detached. -/
def detached (portId : Nat) : Option EthDevice :=
  if portId = 1 then some ⟨rteEthDevNoOwner, none⟩ else none

/-- The one usable port is refused, a port that is owned is configured, and a port that is
not there is the cause of a panic. -/
theorem check_not_right :
    ¬ CheckRight { allSucceed [] with devices := failsafe } (onPort '1') ∧
      ¬ CheckRight { allSucceed [] with devices := failsafe } (onPort '0') ∧
        ¬ CheckRight { allSucceed [] with devices := detached } (onPort '0') := by
  refine ⟨?_, ?_, ?_⟩
  · intro right
    have called := right.configures.mpr (by decide)
    have hm : main { allSucceed [] with devices := failsafe } (onPort '1') = ⟨[], .exit 1⟩ := rfl
    rw [hm] at called
    cases called
  · intro right
    have usable := right.configures.mp List.mem_cons_self
    exact absurd usable (by decide)
  · intro right
    exact right.noPanic rfl

end PortCheck
