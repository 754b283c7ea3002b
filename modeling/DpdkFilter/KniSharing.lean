import DpdkFilter.KniFifo

/-!
# Several lcores on one KNI interface

Any number of lcores run the packet loop on the one global `kni`, the kernel's
receive thread and transmit path work at the other ends, and each load and store
of a FIFO word is a step of its own. Every FIFO is written for one user at each
end; with one lcore nothing is lost or doubled, with two a packet can be.
-/

namespace KniSharing

open RingBuffer SpscRing Interleaving KniFifo

/-- The calls of the packet loop that touch a FIFO, between two of their accesses.
`m` is the mbuf a call is about and `bufs` what is left of the burst. -/
inductive Lcore where
  | head
  | stopped
  | rxGet (pc : GetPc Nat)
  | allocWrite (m : Nat)
  | allocRead (m write : Nat)
  | allocate (m free : Nat)
  | allocPut (m : Nat) (pc : PutPc Nat)
  | ethTx (m : Nat)
  | ethRx
  | packets (bufs : List Nat)
  | txWrite (m : Nat) (bufs : List Nat)
  | txRead (m : Nat) (bufs : List Nat) (write : Nat)
  | txPut (m : Nat) (bufs : List Nat) (pc : PutPc Nat)
  | freeGet (m : Nat) (bufs : List Nat) (ret : Nat) (pc : GetPc Nat)
  | txReturned (bufs : List Nat) (ret : Nat)

/-- `kni_net_rx_normal`. -/
inductive KernelRx where
  | idle
  | freeRead (write : Nat)
  | rxGet (pc : GetPc Nat)
  | freePut (pc : PutPc Nat)

/-- `kni_net_tx`. -/
inductive KernelTx where
  | idle
  | txRead (write : Nat)
  | allocWrite
  | allocRead (write : Nat)
  | allocGet (pc : GetPc Nat)
  | txPut (pc : PutPc Nat)

/-- What all parties share; `returned` lists the mbufs for which `rte_kni_tx_burst`
has returned 1, and `kniPackets` counts the increments of the counter. -/
structure Shared where
  rxQ : Queue Nat
  txQ : Queue Nat
  allocQ : Queue Nat
  freeQ : Queue Nat
  returned : List Nat
  kniPackets : Nat

structure State where
  shared : Shared
  lcore : Nat → Lcore
  kernelRx : KernelRx
  kernelTx : KernelTx

/-- What the rest of the world answers an lcore: the stop flag, what the mempool and
the NIC hand out, and whether a packet is one for the KNI. -/
structure Env where
  forceQuit : Bool
  pkts : List Nat
  bufs : List Nat
  toKni : Bool

def burstSize : Nat := 32

def maxMbufBurstNum : Nat := 32

def mbufBurstSz : Nat := 32

def N : Nat := kniFifoCountMax

/-- One step of the packet loop of an lcore. `none` stands for an answer the
environment cannot give: more mbufs than were asked for. -/
def lcoreStep (e : Env) : Lcore → Shared → Option (Lcore × Shared)
  | .head, s => some (if e.forceQuit then .stopped else .rxGet (.loadRead 1), s)
  | .stopped, _ => none
  | .rxGet pc, s =>
    let s' := { s with txQ := s.txQ.get N pc }
    match (pc.step N s.txQ.words).2 with
    | .inl pc => some (.rxGet pc, s')
    | .inr [] => some (.ethRx, s')
    | .inr (m :: _) => some (.allocWrite m, s')
  | .allocWrite m, s => some (.allocRead m s.allocQ.words.write, s)
  | .allocRead m write, s => some (.allocate m (fifoFreeCount N write s.allocQ.words.read), s)
  | .allocate m free, s =>
    if min free maxMbufBurstNum < e.pkts.length then none
    else if e.pkts = [] then some (.ethTx m, s)
    else some (.allocPut m (.loadWrite e.pkts), s)
  | .allocPut m pc, s =>
    let s' := { s with allocQ := s.allocQ.put N pc }
    match (pc.step N s.allocQ.words).2 with
    | .inl pc => some (.allocPut m pc, s')
    | .inr _ => some (.ethTx m, s')
  | .ethTx _, s => some (.ethRx, s)
  | .ethRx, s =>
    if burstSize < e.bufs.length then none
    else if e.bufs = [] then some (.head, s)
    else some (.packets e.bufs, s)
  | .packets [], s => some (.head, s)
  | .packets (m :: bufs), s => some (if e.toKni then .txWrite m bufs else .packets bufs, s)
  | .txWrite m bufs, s => some (.txRead m bufs s.rxQ.words.write, s)
  | .txRead m bufs write, s =>
    let num := min (fifoFreeCount N write s.rxQ.words.read) 1
    some (.txPut m bufs (.loadWrite ([m].take num)), s)
  | .txPut m bufs pc, s =>
    let s' := { s with rxQ := s.rxQ.put N pc }
    match (pc.step N s.rxQ.words).2 with
    | .inl pc => some (.txPut m bufs pc, s')
    | .inr ret => some (.freeGet m bufs ret (.loadRead maxMbufBurstNum), s')
  | .freeGet m bufs ret pc, s =>
    let s' := { s with freeQ := s.freeQ.get N pc }
    match (pc.step N s.freeQ.words).2 with
    | .inl pc => some (.freeGet m bufs ret pc, s')
    | .inr _ =>
      some (.txReturned bufs ret, { s' with returned := s.returned ++ if ret = 0 then [] else [m] })
  | .txReturned bufs ret, s =>
    some (.packets bufs, { s with kniPackets := if ret = 0 then s.kniPackets else s.kniPackets + 1 })

def kernelRxStep : KernelRx → Shared → KernelRx × Shared
  | .idle, s => (.freeRead s.freeQ.words.write, s)
  | .freeRead write, s =>
    let numFq := fifoFreeCount N write s.freeQ.words.read
    if numFq = 0 then (.idle, s) else (.rxGet (.loadRead (min numFq mbufBurstSz)), s)
  | .rxGet pc, s =>
    let s' := { s with rxQ := s.rxQ.get N pc }
    match (pc.step N s.rxQ.words).2 with
    | .inl pc => (.rxGet pc, s')
    | .inr [] => (.idle, s')
    | .inr (m :: pkts) => (.freePut (.loadWrite (m :: pkts)), s')
  | .freePut pc, s =>
    let s' := { s with freeQ := s.freeQ.put N pc }
    match (pc.step N s.freeQ.words).2 with
    | .inl pc => (.freePut pc, s')
    | .inr _ => (.idle, s')

def kernelTxStep : KernelTx → Shared → KernelTx × Shared
  | .idle, s => (.txRead s.txQ.words.write, s)
  | .txRead write, s =>
    (if fifoFreeCount N write s.txQ.words.read = 0 then .idle else .allocWrite, s)
  | .allocWrite, s => (.allocRead s.allocQ.words.write, s)
  | .allocRead write, s =>
    (if fifoCount N write s.allocQ.words.read = 0 then .idle else .allocGet (.loadRead 1), s)
  | .allocGet pc, s =>
    let s' := { s with allocQ := s.allocQ.get N pc }
    match (pc.step N s.allocQ.words).2 with
    | .inl pc => (.allocGet pc, s')
    | .inr [] => (.idle, s')
    | .inr (m :: pkts) => (.txPut (.loadWrite (m :: pkts)), s')
  | .txPut pc, s =>
    let s' := { s with txQ := s.txQ.put N pc }
    match (pc.step N s.txQ.words).2 with
    | .inl pc => (.txPut pc, s')
    | .inr _ => (.idle, s')

/-- Who takes the next step. -/
inductive Move where
  | lcore (i : Nat) (e : Env)
  | kernelRx
  | kernelTx

def exec (n : Nat) : Move → State → Option State
  | .lcore i e, s =>
    if i < n then
      (lcoreStep e (s.lcore i) s.shared).map fun r =>
        { s with lcore := Function.update s.lcore i r.1, shared := r.2 }
    else none
  | .kernelRx, s =>
    let r := kernelRxStep s.kernelRx s.shared
    some { s with kernelRx := r.1, shared := r.2 }
  | .kernelTx, s =>
    let r := kernelTxStep s.kernelTx s.shared
    some { s with kernelTx := r.1, shared := r.2 }

/-- A FIFO as `kni_fifo_init` leaves it. -/
structure Empty (q : Queue Nat) : Prop where
  write : q.words.write = 0
  read : q.words.read = 0
  pushed : q.pushed = []
  popped : q.popped = []

/-- All lcores stand before the packet loop and the interface has just been created;
`alloc_q` may hold anything. -/
structure Launch (s : State) : Prop where
  lcore : ∀ i, s.lcore i = .head
  kernelRx : s.kernelRx = .idle
  kernelTx : s.kernelTx = .idle
  rxQ : Empty s.shared.rxQ
  txQ : Empty s.shared.txQ
  freeQ : Empty s.shared.freeQ
  returned : s.shared.returned = []
  kniPackets : s.shared.kniPackets = 0

/-- `n` lcores and the kernel, in any order of their steps. -/
def sharing (n : Nat) : System State where
  Init := Launch
  Step := fun s t => ∃ mv, exec n mv s = some t

/-- The mbuf an lcore has published on `rx_q` in a call that has not returned yet. -/
def Lcore.publishedRx : Lcore → List Nat
  | .freeGet m _ ret _ => if ret = 0 then [] else [m]
  | _ => []

/-- What the lcores below `n` have published and not yet returned. -/
def inProgress (n : Nat) (s : State) : List Nat :=
  (List.range n).flatMap fun i => (s.lcore i).publishedRx

/-- No packet is lost or duplicated. Counted by address: every accepted mbuf stands in
`rx_q` or has been dequeued, and nothing else does but what a call still in progress
has published; what the kernel has put on `tx_q` and `free_q` stands there or has been
obtained once; and no more packets are counted than the kernel can see. -/
structure Safe (n : Nat) (s : State) : Prop where
  accepted : ∀ a, s.shared.returned.count a ≤
    (s.shared.rxQ.standing N).count a + s.shared.rxQ.popped.count a
  seen : ∀ a, (s.shared.rxQ.standing N).count a + s.shared.rxQ.popped.count a ≤
    s.shared.returned.count a + (inProgress n s).count a
  txQ : ∀ a, s.shared.txQ.pushed.count a =
    (s.shared.txQ.standing N).count a + s.shared.txQ.popped.count a
  freeQ : ∀ a, s.shared.freeQ.pushed.count a =
    (s.shared.freeQ.standing N).count a + s.shared.freeQ.popped.count a
  counted : s.shared.kniPackets ≤
    (s.shared.rxQ.standing N).length + s.shared.rxQ.popped.length

/-! ## One lcore -/

def Lcore.putRx : Lcore → Option (PutPc Nat)
  | .txPut _ _ pc => some pc
  | _ => none

def Lcore.getTx : Lcore → Option (GetPc Nat)
  | .rxGet pc => some pc
  | _ => none

def Lcore.getFree : Lcore → Option (GetPc Nat)
  | .freeGet _ _ _ pc => some pc
  | _ => none

def KernelRx.getRx : KernelRx → Option (GetPc Nat)
  | .rxGet pc => some pc
  | _ => none

def KernelRx.putFree : KernelRx → Option (PutPc Nat)
  | .freePut pc => some pc
  | _ => none

def KernelTx.putTx : KernelTx → Option (PutPc Nat)
  | .txPut pc => some pc
  | _ => none

/-- What the loop does between its calls on a FIFO. -/
def Lcore.quiet : Lcore → Bool
  | .rxGet _ => false
  | .allocPut _ _ => false
  | .txRead _ _ _ => false
  | .txPut _ _ _ => false
  | .freeGet _ _ _ _ => false
  | .txReturned _ _ => false
  | _ => true

/-- A packet returned as accepted and not yet counted. -/
def Lcore.uncounted : Lcore → Nat
  | .txReturned _ ret => if ret = 0 then 0 else 1
  | _ => 0

section
variable {e : Env} {l l' : Lcore} {s s' : Shared}

theorem quiet_putRx (h : l.quiet = true) : l.putRx = none := by
  cases l <;> first | rfl | cases h

theorem quiet_getTx (h : l.quiet = true) : l.getTx = none := by
  cases l <;> first | rfl | cases h

theorem quiet_getFree (h : l.quiet = true) : l.getFree = none := by
  cases l <;> first | rfl | cases h

theorem quiet_publishedRx (h : l.quiet = true) : l.publishedRx = [] := by
  cases l <;> first | rfl | cases h

theorem quiet_uncounted (h : l.quiet = true) : l.uncounted = 0 := by
  cases l <;> first | rfl | cases h

/-- A quiet step changes no shared word; at most it enters `rte_kni_rx_burst` or the
put on `alloc_q`. -/
theorem lcoreStep_quiet (h : lcoreStep e l s = some (l', s')) (quiet : l.quiet = true) :
    s' = s ∧ (l' = .rxGet (.loadRead 1) ∨ (∃ m, l' = .allocPut m (.loadWrite e.pkts)) ∨
      (∃ m bufs write, l' = .txRead m bufs write) ∨ l'.quiet = true) := by
  cases l with
  | head =>
    cases h
    cases e.forceQuit <;> simp [Lcore.quiet]
  | packets bufs =>
    cases bufs with
    | nil =>
      cases h
      simp [Lcore.quiet]
    | cons m bufs =>
      cases h
      cases e.toKni <;> simp [Lcore.quiet]
  | allocate m free =>
    simp only [lcoreStep] at h
    repeat' split at h
    all_goals cases h
    · simp [Lcore.quiet]
    · simp
  | ethRx =>
    simp only [lcoreStep] at h
    repeat' split at h
    all_goals cases h
    · simp [Lcore.quiet]
    · simp [Lcore.quiet]
  | stopped => cases h
  | allocWrite m => cases h; simp [Lcore.quiet]
  | allocRead m write => cases h; simp [Lcore.quiet]
  | ethTx m => cases h; simp [Lcore.quiet]
  | txWrite m bufs => cases h; simp
  | _ => cases quiet

/-- An lcore produces on `rx_q`. -/
theorem lcoreStep_rxQ (h : lcoreStep e l s = some (l', s')) :
    Produces N s.rxQ l.putRx s'.rxQ l'.putRx := by
  cases hq : l.quiet with
  | true =>
    obtain ⟨rfl, hl'⟩ := lcoreStep_quiet h hq
    rw [quiet_putRx hq]
    rcases hl' with rfl | ⟨m, rfl⟩ | ⟨m, bufs, write, rfl⟩ | hq'
    · exact .idle _ _
    · exact .idle _ _
    · exact .idle _ _
    · rw [quiet_putRx hq']
      exact .idle _ _
  | false =>
    cases l with
    | rxGet pc =>
      simp only [lcoreStep] at h
      split at h <;> (cases h; exact .idle _ _)
    | allocPut m pc =>
      simp only [lcoreStep] at h
      split at h <;> (cases h; exact .idle _ _)
    | txRead m bufs write =>
      cases h
      exact .start _ _
    | txPut m bufs pc =>
      have access := Produces.access (N := N) s.rxQ pc
      simp only [lcoreStep] at h
      split at h <;> (rename_i hs; rw [hs] at access; cases h; exact access)
    | freeGet m bufs ret pc =>
      simp only [lcoreStep] at h
      split at h <;> (cases h; exact .idle _ _)
    | txReturned bufs ret =>
      cases h
      exact .idle _ _
    | _ => cases hq

/-- An lcore consumes from `tx_q`. -/
theorem lcoreStep_txQ (h : lcoreStep e l s = some (l', s')) :
    Consumes N s.txQ l.getTx s'.txQ l'.getTx := by
  cases hq : l.quiet with
  | true =>
    obtain ⟨rfl, hl'⟩ := lcoreStep_quiet h hq
    rw [quiet_getTx hq]
    rcases hl' with rfl | ⟨m, rfl⟩ | ⟨m, bufs, write, rfl⟩ | hq'
    · exact .start _ _
    · exact .idle _ _
    · exact .idle _ _
    · rw [quiet_getTx hq']
      exact .idle _ _
  | false =>
    cases l with
    | rxGet pc =>
      have access := Consumes.access (N := N) s.txQ pc
      simp only [lcoreStep] at h
      split at h <;> (rename_i hs; rw [hs] at access; cases h; exact access)
    | allocPut m pc =>
      simp only [lcoreStep] at h
      split at h <;> (cases h; exact .idle _ _)
    | txRead m bufs write =>
      cases h
      exact .idle _ _
    | txPut m bufs pc =>
      simp only [lcoreStep] at h
      split at h <;> (cases h; exact .idle _ _)
    | freeGet m bufs ret pc =>
      simp only [lcoreStep] at h
      split at h <;> (cases h; exact .idle _ _)
    | txReturned bufs ret =>
      cases h
      exact .idle _ _
    | _ => cases hq

/-- An lcore consumes from `free_q`. -/
theorem lcoreStep_freeQ (h : lcoreStep e l s = some (l', s')) :
    Consumes N s.freeQ l.getFree s'.freeQ l'.getFree := by
  cases hq : l.quiet with
  | true =>
    obtain ⟨rfl, hl'⟩ := lcoreStep_quiet h hq
    rw [quiet_getFree hq]
    rcases hl' with rfl | ⟨m, rfl⟩ | ⟨m, bufs, write, rfl⟩ | hq'
    · exact .idle _ _
    · exact .idle _ _
    · exact .idle _ _
    · rw [quiet_getFree hq']
      exact .idle _ _
  | false =>
    cases l with
    | rxGet pc =>
      simp only [lcoreStep] at h
      split at h <;> (cases h; exact .idle _ _)
    | allocPut m pc =>
      simp only [lcoreStep] at h
      split at h <;> (cases h; exact .idle _ _)
    | txRead m bufs write =>
      cases h
      exact .idle _ _
    | txPut m bufs pc =>
      simp only [lcoreStep] at h
      split at h
      · cases h
        exact .idle _ _
      · cases h
        exact .start _ _
    | freeGet m bufs ret pc =>
      have access := Consumes.access (N := N) s.freeQ pc
      simp only [lcoreStep] at h
      split at h <;> (rename_i hs; rw [hs] at access; cases h; exact access)
    | txReturned bufs ret =>
      cases h
      exact .idle _ _
    | _ => cases hq

/-- What one lcore has pushed on `rx_q`, returned and counted. -/
structure Accounts (l : Lcore) (s : Shared) : Prop where
  pushed : s.rxQ.pushed = s.returned ++ l.publishedRx
  counted : s.kniPackets + l.uncounted = s.returned.length
  offered : ∀ m bufs pc, l = .txPut m bufs pc → pc.data <+: [m]

/-- The mbuf offered is what a put that returns has published. -/
theorem published_offered {pc : PutPc Nat} {f : Words Nat} {m ret : Nat} (ok : pc.Ok N f)
    (offered : pc.data <+: [m]) (h : (pc.step N f).2 = .inr ret) :
    pc.published = if ret = 0 then [] else [m] := by
  obtain ⟨data, write, rfl⟩ := PutPc.returns h
  have hle : ret ≤ data.length := Pending.count_le ok
  have hone := offered.length_le
  simp only [PutPc.data, List.length_singleton] at hone
  by_cases hret : ret = 0
  · simp [PutPc.published, hret]
  · have hdata : data = [m] := offered.eq_of_length (by simp [PutPc.data]; omega)
    have hone : ret = 1 := by omega
    simp [PutPc.published, hdata, hone]

theorem lcoreStep_accounts (h : lcoreStep e l s = some (l', s')) (acc : Accounts l s)
    (ok : ∀ pc, l.putRx = some pc → pc.Ok N s.rxQ.words) : Accounts l' s' := by
  obtain ⟨pushed, counted, offered⟩ := acc
  cases hq : l.quiet with
  | true =>
    obtain ⟨rfl, hl'⟩ := lcoreStep_quiet h hq
    rw [quiet_publishedRx hq] at pushed
    rw [quiet_uncounted hq] at counted
    rcases hl' with rfl | ⟨m, rfl⟩ | ⟨m, bufs, write, rfl⟩ | hq'
    · exact ⟨pushed, counted, by simp⟩
    · exact ⟨pushed, counted, by simp⟩
    · exact ⟨pushed, counted, by simp⟩
    · rw [← quiet_publishedRx hq'] at pushed
      rw [← quiet_uncounted hq'] at counted
      refine ⟨pushed, counted, ?_⟩
      rintro m bufs pc rfl
      cases hq'
  | false =>
    cases l with
    | rxGet pc =>
      simp only [lcoreStep] at h
      split at h <;> (cases h; exact ⟨pushed, counted, by simp⟩)
    | allocPut m pc =>
      simp only [lcoreStep] at h
      split at h <;> (cases h; exact ⟨pushed, counted, by simp⟩)
    | txRead m bufs write =>
      cases h
      refine ⟨pushed, counted, ?_⟩
      intro m' bufs' pc hpc
      obtain ⟨rfl, rfl, rfl⟩ := Lcore.txPut.inj hpc
      rw [PutPc.data]
      exact List.take_prefix _ _
    | txPut m bufs pc =>
      have hoffered := offered m bufs pc rfl
      simp only [lcoreStep] at h
      split at h
      · rename_i pc' hs
        cases h
        refine ⟨?_, counted, ?_⟩
        · simp only [Queue.put, PutPc.published_of_continues hs, List.append_nil]
          exact pushed
        · rintro m' bufs' pc ⟨⟩
          rw [PutPc.step_data hs]
          exact hoffered
      · rename_i ret hs
        cases h
        refine ⟨?_, counted, by simp⟩
        have hpub := published_offered (ok pc rfl) hoffered hs
        simp only [Lcore.publishedRx, List.append_nil] at pushed
        simp only [Queue.put, pushed, hpub, Lcore.publishedRx]
    | freeGet m bufs ret pc =>
      simp only [lcoreStep] at h
      split at h
      · cases h
        exact ⟨pushed, counted, by simp⟩
      · cases h
        refine ⟨by simpa [Lcore.publishedRx] using pushed, ?_, by simp⟩
        have hret : (if ret = 0 then ([] : List Nat) else [m]).length = if ret = 0 then 0 else 1 := by
          split <;> rfl
        simp only [Lcore.uncounted, Nat.add_zero] at counted ⊢
        rw [List.length_append, hret, counted]
    | txReturned bufs ret =>
      cases h
      refine ⟨pushed, ?_, by simp⟩
      simp only [Lcore.uncounted] at counted ⊢
      split at counted <;> simp [*]
    | _ => cases hq

end

/-- The kernel's receive thread consumes from `rx_q` and produces on `free_q`. -/
theorem kernelRxStep_effect (k : KernelRx) (s : Shared) :
    Consumes N s.rxQ k.getRx (kernelRxStep k s).2.rxQ (kernelRxStep k s).1.getRx ∧
      Produces N s.freeQ k.putFree (kernelRxStep k s).2.freeQ (kernelRxStep k s).1.putFree ∧
      (kernelRxStep k s).2.txQ = s.txQ ∧ (kernelRxStep k s).2.rxQ.pushed = s.rxQ.pushed ∧
      (kernelRxStep k s).2.returned = s.returned ∧
      (kernelRxStep k s).2.kniPackets = s.kniPackets := by
  cases k with
  | idle => exact ⟨.idle _ _, .idle _ _, rfl, rfl, rfl, rfl⟩
  | freeRead write =>
    simp only [kernelRxStep]
    split
    · exact ⟨.idle _ _, .idle _ _, rfl, rfl, rfl, rfl⟩
    · exact ⟨.start _ _, .idle _ _, rfl, rfl, rfl, rfl⟩
  | rxGet pc =>
    have access := Consumes.access (N := N) s.rxQ pc
    simp only [kernelRxStep]
    split <;> rename_i hs <;> rw [hs] at access
    · exact ⟨access, .idle _ _, rfl, rfl, rfl, rfl⟩
    · exact ⟨access, .idle _ _, rfl, rfl, rfl, rfl⟩
    · exact ⟨access, .start _ _, rfl, rfl, rfl, rfl⟩
  | freePut pc =>
    have access := Produces.access (N := N) s.freeQ pc
    simp only [kernelRxStep]
    split <;> rename_i hs <;> rw [hs] at access
    · exact ⟨.idle _ _, access, rfl, rfl, rfl, rfl⟩
    · exact ⟨.idle _ _, access, rfl, rfl, rfl, rfl⟩

/-- The kernel's transmit path produces on `tx_q`. -/
theorem kernelTxStep_effect (k : KernelTx) (s : Shared) :
    Produces N s.txQ k.putTx (kernelTxStep k s).2.txQ (kernelTxStep k s).1.putTx ∧
      (kernelTxStep k s).2.rxQ = s.rxQ ∧ (kernelTxStep k s).2.freeQ = s.freeQ ∧
      (kernelTxStep k s).2.returned = s.returned ∧
      (kernelTxStep k s).2.kniPackets = s.kniPackets := by
  cases k with
  | idle => exact ⟨.idle _ _, rfl, rfl, rfl, rfl⟩
  | txRead write =>
    refine ⟨?_, rfl, rfl, rfl, rfl⟩
    dsimp only [kernelTxStep]
    split <;> exact .idle _ _
  | allocWrite => exact ⟨.idle _ _, rfl, rfl, rfl, rfl⟩
  | allocRead write =>
    refine ⟨?_, rfl, rfl, rfl, rfl⟩
    dsimp only [kernelTxStep]
    split <;> exact .idle _ _
  | allocGet pc =>
    simp only [kernelTxStep]
    split
    · exact ⟨.idle _ _, rfl, rfl, rfl, rfl⟩
    · exact ⟨.idle _ _, rfl, rfl, rfl, rfl⟩
    · exact ⟨.start _ _, rfl, rfl, rfl, rfl⟩
  | txPut pc =>
    have access := Produces.access (N := N) s.txQ pc
    simp only [kernelTxStep]
    split <;> rename_i hs <;> rw [hs] at access <;> exact ⟨access, rfl, rfl, rfl, rfl⟩

/-- With one lcore every FIFO end has one user. -/
structure SingleUser (s : State) : Prop where
  rxQ : Inv N (s.shared.rxQ.between (s.lcore 0).putRx s.kernelRx.getRx)
  txQ : Inv N (s.shared.txQ.between s.kernelTx.putTx (s.lcore 0).getTx)
  freeQ : Inv N (s.shared.freeQ.between s.kernelRx.putFree (s.lcore 0).getFree)
  accounts : Accounts (s.lcore 0) s.shared

theorem SingleUser.exec {s t : State} {mv : Move} (inv : SingleUser s)
    (h : KniSharing.exec 1 mv s = some t) : SingleUser t := by
  cases mv with
  | lcore i e =>
    simp only [KniSharing.exec] at h
    split at h
    · rename_i hi
      obtain rfl : i = 0 := by omega
      obtain ⟨⟨l', s'⟩, hstep, rfl⟩ := Option.map_eq_some_iff.mp h
      refine ⟨?_, ?_, ?_, ?_⟩
      · simpa using inv.rxQ.produces (lcoreStep_rxQ hstep)
      · simpa using inv.txQ.consumes (lcoreStep_txQ hstep)
      · simpa using inv.freeQ.consumes (lcoreStep_freeQ hstep)
      · simpa using lcoreStep_accounts hstep inv.accounts inv.rxQ.put_ok
    · cases h
  | kernelRx =>
    obtain ⟨rx, free, tx, pushed, returned, packets⟩ := kernelRxStep_effect s.kernelRx s.shared
    cases h
    refine ⟨inv.rxQ.consumes rx, ?_, inv.freeQ.produces free, ?_⟩
    · simpa [tx] using inv.txQ
    · obtain ⟨hpushed, hcounted, hoffered⟩ := inv.accounts
      exact ⟨by simpa [pushed, returned] using hpushed, by simpa [packets, returned] using hcounted,
        hoffered⟩
  | kernelTx =>
    obtain ⟨tx, rx, free, returned, packets⟩ := kernelTxStep_effect s.kernelTx s.shared
    cases h
    refine ⟨?_, inv.txQ.produces tx, ?_, ?_⟩
    · simpa [rx] using inv.rxQ
    · simpa [free] using inv.freeQ
    · obtain ⟨hpushed, hcounted, hoffered⟩ := inv.accounts
      exact ⟨by simpa [rx, returned] using hpushed, by simpa [packets, returned] using hcounted,
        hoffered⟩

theorem Empty.inv {q : Queue Nat} (h : Empty q) : Inv N (q.between none none) := by
  refine ⟨?_, ?_, by simp [Queue.between], by simp [Queue.between], ?_⟩
  · simp [Queue.between, h.write, N, kniFifoCountMax]
  · simp [Queue.between, h.read, N, kniFifoCountMax]
  · simp [Queue.between, SpscRing.State.standing, h.write, h.read, h.pushed, h.popped]

theorem Launch.singleUser {s : State} (h : Launch s) : SingleUser s where
  rxQ := by
    rw [h.lcore, h.kernelRx]
    exact h.rxQ.inv
  txQ := by
    rw [h.lcore, h.kernelTx]
    exact h.txQ.inv
  freeQ := by
    rw [h.lcore, h.kernelRx]
    exact h.freeQ.inv
  accounts :=
    { pushed := by simp [h.lcore, h.rxQ.pushed, h.returned, Lcore.publishedRx]
      counted := by simp [h.lcore, h.kniPackets, h.returned, Lcore.uncounted]
      offered := by simp [h.lcore] }

theorem reachable_singleUser {s : State} (h : (sharing 1).Reachable s) : SingleUser s := by
  refine h.invariant (I := SingleUser) (fun _ => Launch.singleUser) ?_
  rintro s t inv ⟨mv, hmv⟩
  exact inv.exec hmv

theorem SingleUser.safe {s : State} (inv : SingleUser s) : Safe 1 s := by
  obtain ⟨pushed, counted, _⟩ := inv.accounts
  have rx := inv.rxQ.pushed_eq
  have tx := inv.txQ.pushed_eq
  have free := inv.freeQ.pushed_eq
  have one : inProgress 1 s = (s.lcore 0).publishedRx := by simp [inProgress]
  rw [pushed] at rx
  have count : ∀ a, s.shared.returned.count a + (s.lcore 0).publishedRx.count a =
      s.shared.rxQ.popped.count a + (s.shared.rxQ.standing N).count a := by
    intro a
    rw [← List.count_append, ← List.count_append, rx]
  refine ⟨fun a => ?_, fun a => ?_, fun a => ?_, fun a => ?_, ?_⟩
  · have := count a
    omega
  · rw [one]
    have := count a
    omega
  · rw [tx, List.count_append, Nat.add_comm]
  · rw [free, List.count_append, Nat.add_comm]
  · have length := congrArg List.length rx
    simp only [List.length_append] at length
    omega

/-! ## Two lcores -/

def emptyQueue : Queue Nat := ⟨⟨0, 0, fun _ => 0⟩, [], []⟩

def launch : State where
  shared := ⟨emptyQueue, emptyQueue, emptyQueue, emptyQueue, [], 0⟩
  lcore _ := .head
  kernelRx := .idle
  kernelTx := .idle

/-- An lcore that receives one packet and sends it to the KNI. -/
def receives (m : Nat) : Env := { forceQuit := false, pkts := [], bufs := [m], toKni := true }

/-- Lcore 1 loads the write position of `rx_q`; lcore 0 then sends its packet, and
lcore 1 goes on with the position it has. -/
def race : List Move :=
  List.replicate 10 (.lcore 1 (receives 11)) ++ List.replicate 18 (.lcore 0 (receives 10)) ++
    List.replicate 8 (.lcore 1 (receives 11))

/-- Both calls return 1 and one packet stands. -/
theorem race_runs :
    (System.follow (exec 2) race launch).map
      (fun s => (s.shared.returned, s.shared.rxQ.standing N, s.shared.rxQ.popped)) =
    some ([10, 11], [11], []) := by
  decide +kernel

theorem two_lcores_lose :
    ∃ s, (sharing 2).Reachable s ∧ s.shared.returned = [10, 11] ∧
      s.shared.rxQ.standing N = [11] ∧ s.shared.rxQ.popped = [] := by
  obtain ⟨s, hs, heq⟩ := Option.map_eq_some_iff.mp race_runs
  simp only [Prod.mk.injEq] at heq
  have start : Launch launch :=
    ⟨fun _ => rfl, rfl, rfl, ⟨rfl, rfl, rfl, rfl⟩, ⟨rfl, rfl, rfl, rfl⟩, ⟨rfl, rfl, rfl, rfl⟩, rfl, rfl⟩
  have init : (sharing 2).Reachable launch := .init start
  exact ⟨s, init.follow (S := sharing 2) (fun mv _ _ h => ⟨mv, h⟩) hs, heq⟩

theorem not_safe_of_lost {n : Nat} {s : State} (returned : s.shared.returned = [10, 11])
    (standing : s.shared.rxQ.standing N = [11]) (popped : s.shared.rxQ.popped = []) :
    ¬ Safe n s := by
  intro safe
  have h := safe.accepted 10
  rw [returned, standing, popped] at h
  exact absurd h (by decide)

/-- More lcores can do what fewer can. -/
theorem exec_mono {n k : Nat} (hle : n ≤ k) {mv : Move} {s t : State} (h : exec n mv s = some t) :
    exec k mv s = some t := by
  cases mv with
  | lcore i e =>
    simp only [exec] at h ⊢
    split at h
    · rw [if_pos (by omega)]
      exact h
    · cases h
  | kernelRx => exact h
  | kernelTx => exact h

theorem reachable_mono {n k : Nat} (hle : n ≤ k) {s : State} (h : (sharing n).Reachable s) :
    (sharing k).Reachable s := by
  refine h.mono (S := sharing n) (T := sharing k) (fun _ start => start) ?_
  rintro s t ⟨mv, hmv⟩
  exact ⟨mv, exec_mono hle hmv⟩

/-- On one KNI interface nothing is lost or duplicated exactly when one lcore runs the
packet loop. -/
theorem safe_iff_one_lcore (n : Nat) (hn : 1 ≤ n) :
    (∀ s, (sharing n).Reachable s → Safe n s) ↔ n = 1 := by
  constructor
  · intro safe
    by_contra hne
    obtain ⟨s, reach, returned, standing, popped⟩ := two_lcores_lose
    exact not_safe_of_lost returned standing popped (safe s (reachable_mono (by omega) reach))
  · rintro rfl s reach
    exact (reachable_singleUser reach).safe

theorem one_lcore_safe : (∀ s, (sharing 1).Reachable s → Safe 1 s) ∧
    ¬ ∀ s, (sharing 2).Reachable s → Safe 2 s := by
  constructor
  · exact (safe_iff_one_lcore 1 (by decide)).mpr rfl
  · intro safe
    exact absurd ((safe_iff_one_lcore 2 (by decide)).mp safe) (by decide)

/-- Two lcores lose a packet that both were told is accepted. -/
theorem two_lcores_not_safe : ∃ s, (sharing 2).Reachable s ∧ ¬ Safe 2 s := by
  obtain ⟨s, reach, returned, standing, popped⟩ := two_lcores_lose
  exact ⟨s, reach, not_safe_of_lost returned standing popped⟩

end KniSharing
