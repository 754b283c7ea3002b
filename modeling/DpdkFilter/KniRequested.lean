import DpdkFilter.LcoreRuns
import DpdkFilter.Startup

/-!
# A requested interface

`main` never initialises the KNI library, and a failed `init_kni` is only a warning. So
an interface asked for with `-k` is in force exactly when something else has initialised
the library before, which a net_kni device among the EAL options does.
-/

namespace KniRequested

open CString KniLibrary LcoreMain LcoreRuns Mbuf Options Startup

/-- What happens to a packet that no rule selects while the interface is in force. -/
def Offered (g : Globals) (m : RteMbuf) (seg : List Event) : Prop :=
  branch g.filterRules m ≠ .forward → ∃ nbTx, seg = loads g.filterRules m ++
    .rteKniTxBurst m nbTx :: if nbTx then [] else [.rtePktmbufFree m]

/-- The interface is in force when the packet loop is entered. -/
structure InForce (g : Globals) : Prop where
  kni : g.kni = true
  offered : ∀ {σ : Type} (W : World σ) (fuel : Nat) (h : Head σ),
    ∀ p ∈ (lcoreMain W g fuel h).1, ∃ segs, List.Forall₂ (Offered g) p.burst.mbufs segs ∧
      p.events = if p.burst.mbufs = [] then [.rtePause] else segs.flatten

/-- The last `-k` names an interface, a net_kni device has initialised the library, and
the name, cut to its field, is neither that of another process's interface nor that of
the port's own. -/
def Obtains (env : MainEnv) (opts : List Opt) : Prop :=
  ∃ p name, parseOptions opts .initial = .ok p ∧ lastKni opts none = some name ∧ name ≠ [] ∧
    (∃ q ∈ env.probes, Initialises env.primary env.iovaOk q) ∧
    ∀ n ∈ env.others ++ portInterface env p.portId,
      strncmp (name.take (rteKniNamesize - 1)) n rteKniNamesize ≠ 0

theorem inForce_iff_kni (g : Globals) : InForce g ↔ g.kni = true := by
  refine ⟨InForce.kni, fun live => ⟨live, ?_⟩⟩
  intro σ W fuel h p hp
  have packet : ∀ m w c, Offered g m (processPacket W g m w c).events := by
    intro m w c unmatched
    rw [processPacket_eq, if_neg unmatched]
    rcases kniOrFree_cases W g.kni m w c with ⟨_, he, _⟩ | ⟨_, he, _⟩ | ⟨off, _, _⟩
    · exact ⟨true, by simp [Out.prepend, he]⟩
    · exact ⟨false, by simp [Out.prepend, he]⟩
    · rw [live] at off
      cases off
  obtain ⟨h', rfl⟩ := lcoreMain_pass W g fuel h p hp
  exact lcorePass_segments W g packet h'

/-- Where nothing fails that is tried, the requested interface is in force exactly when it
can be had at all. -/
theorem inForce_iff_obtains {env : MainEnv} {opts : List Opt} {g : Globals}
    (succeeds : env.KniSucceeds) (launched : (main env opts).outcome = .launch g) :
    InForce g ↔ Obtains env opts := by
  obtain ⟨p, forwardIfname, calls, lib, d, parsed, _, created, port, _, rfl⟩ :=
    main_launch launched
  obtain ⟨opened, list⟩ := probes_initialise env.primary env.iovaOk env.others env.probes
    succeeds.opens
  have left := portInit_lib port
  have name := parseOptions_kniName parsed
  rw [inForce_iff_kni]
  dsimp only
  unfold kniPointer
  cases hk : p.kniName with
  | none =>
    refine iff_of_false Bool.false_ne_true ?_
    rintro ⟨q, n, parsed', last, _⟩
    cases parsed.symm.trans parsed'
    rw [hk] at name
    cases name.trans last
  | some kniName =>
    rw [hk] at name
    dsimp only
    rw [initKni, created, rteKniAlloc_iff succeeds.kniAlloc, rteKniGet_eq_false, left]
    dsimp only [kniConf]
    rw [show (ealKniLib env).kniList = env.others from list]
    constructor
    · rintro ⟨named, up, free⟩
      refine ⟨p, kniName, parsed, name.symm, ?_, opened.mp up, free⟩
      rintro rfl
      exact named rfl
    · rintro ⟨q, n, parsed', last, named, up, free⟩
      cases parsed.symm.trans parsed'
      cases name.trans last
      refine ⟨?_, opened.mpr up, free⟩
      cases kniName with
      | nil => exact absurd rfl named
      | cons c s => exact List.cons_ne_nil _ _

/-! ## The documented command line -/

/-- One port, and nothing fails. -/
def allSucceed (probes : List KniProbe) : MainEnv where
  ealInit := 4
  primary := true
  iovaOk := true
  probes := probes
  others := []
  devices port := if port = 0 then some ⟨rteEthDevNoOwner, none⟩ else none
  mbufPoolCreate := true
  port := ⟨0, 0, 0, 0, 0, 0, 0, 0⟩
  startAlloc := ⟨true, true, fun _ => true, 0⟩
  kniAlloc := ⟨true, true, fun _ => true, 0⟩
  forward := ⟨5, 0, 6, 2, 0⟩
  calloc _ := true

/-- `-i 0 -f ens35 -s 192.168.182.1:8752 -k vEth0`, as the usage text gives it. -/
def usageExample : List Opt :=
  [.interface ['0'], .forward ['e', 'n', 's', '3', '5'],
    .src ['1', '9', '2', '.', '1', '6', '8', '.', '1', '8', '2', '.', '1', ':', '8', '7', '5', '2'],
    .kni ['v', 'E', 't', 'h', '0']]

/-- The variables with which the loop starts in the usage example. -/
def usageGlobals (kni : Bool) : Globals where
  filterRules := [⟨⟨1, 0x01b6a8c0, 0x3022⟩, 1⟩]
  portId := 0
  kni := kni
  forwardIfname := some ['e', 'n', 's', '3', '5']
  tunFd := -1
  rawSock := 6

theorem allSucceed_succeeds (probes : List KniProbe) (opens : ∀ p ∈ probes, 0 ≤ p.openRet) :
    (allSucceed probes).KniSucceeds :=
  ⟨opens, ⟨rfl, rfl, fun _ => rfl, Int.le_refl 0⟩, ⟨rfl, rfl, fun _ => rfl, Int.le_refl 0⟩⟩

/-- The usage example is accepted, nothing fails, and the loop starts without the KNI. -/
theorem usageExample_without_kni :
    (allSucceed []).KniSucceeds ∧
      (main (allSucceed []) usageExample).outcome = .launch (usageGlobals false) ∧
      (∃ name, name ≠ [] ∧ Opt.kni name ∈ usageExample) ∧ ¬ InForce (usageGlobals false) := by
  refine ⟨allSucceed_succeeds [] (by simp), rfl, ⟨['v', 'E', 't', 'h', '0'], by simp, ?_⟩, ?_⟩
  · simp [usageExample]
  · exact fun inForce => Bool.false_ne_true inForce.kni

/-- With a net_kni device among the EAL options the same example has its interface. -/
theorem usageExample_with_vdev : InForce (usageGlobals true) := by
  have launched : (main (allSucceed [⟨true, 3, true⟩]) usageExample).outcome =
      .launch (usageGlobals true) := rfl
  refine (inForce_iff_obtains (allSucceed_succeeds _ (by simp)) launched).mpr ?_
  refine ⟨_, ['v', 'E', 't', 'h', '0'], rfl, rfl, by simp, ?_, by decide⟩
  exact ⟨⟨true, 3, true⟩, List.mem_cons_self, by decide⟩

end KniRequested
