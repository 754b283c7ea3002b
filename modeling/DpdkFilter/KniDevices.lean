import DpdkFilter.Interleaving
import DpdkFilter.KniLibrary

/-!
# The kernel's lists of interfaces

In each network namespace the module has a list of interfaces, and `/dev/kni` can be opened
once. Threads create and release interfaces at the same time, each in the namespace that it is
in, whichever one its file was opened in. A create looks for its name under the read lock,
registers a net device, starts the kernel thread and enters the interface under the write lock:
another call may come between each two of these. A release takes the write lock, and then first
the net device away and then the entry; closing the file does so with all entries. The memory of
an interface, which is freed with its net device, is taken to be intact as long as its entry is
there. Namespaces stay, and net devices are neither renamed nor moved.
-/

namespace KniDevices

open CString Interleaving KniLibrary

/-- A `task_struct *` as `kthread_create` leaves it. -/
inductive KThread where
  | null
  | running
  | errPtr
  deriving DecidableEq

universe u v
variable {T : Type u} {N : Type v}

/-- `ifname` is the name of the net device, which the kernel makes up from a name with `%`, and
`file` the namespace in which the file was opened over which the interface was created. -/
structure KniDev (N : Type v) where
  name : CStr
  ifname : CStr
  pthread : KThread
  file : N
  deriving DecidableEq

/-- `kni_ioctl_create` before it looks for its name, before `register_netdev`, before
`kni_run_thread` and before it takes the write lock. -/
inductive CreatePc (N : Type v) where
  | checking (name : CStr) (file : N)
  | registering (name : CStr) (file : N)
  | starting (dev : KniDev N)
  | adding (dev : KniDev N)
  deriving DecidableEq

/-- The interface that a create has registered. -/
def CreatePc.dev : CreatePc N → Option (KniDev N)
  | .starting dev => some dev
  | .adding dev => some dev
  | _ => none

def CreatePc.file : CreatePc N → N
  | .checking _ file => file
  | .registering _ file => file
  | .starting dev => dev.file
  | .adding dev => dev.file

theorem CreatePc.file_of_dev {pc : CreatePc N} {dev : KniDev N} (h : pc.dev = some dev) :
    pc.file = dev.file := by
  cases pc with
  | checking name file => cases h
  | registering name file => cases h
  | starting d =>
    cases h
    rfl
  | adding d =>
    cases h
    rfl

/-- Who has the write lock: a `kni_ioctl_release` that has removed the net device of an
interface, or a `kni_release` that may have. -/
inductive Writer (N : Type v) where
  | ioctl (file : N) (dev : KniDev N)
  | closing (removed : Option (KniDev N))
  deriving DecidableEq

def Writer.removed : Writer N → Option (KniDev N)
  | .ioctl _ dev => some dev
  | .closing removed => removed

/-- `struct kni_net` of a namespace, with the net devices that the module has registered and the
creates in progress there. `closing` says that a `kni_release` has stopped the kernel thread.
`failures` counts the failed `kthread_create` since then, and `oops` whether an error pointer
has been passed to `kthread_stop`. -/
structure KniNet (T : Type u) (N : Type v) where
  deviceInUse : Bool
  closing : Bool
  kniKthread : KThread
  kniList : List (KniDev N)
  writer : Option (Writer N)
  registered : List CStr
  create : T → Option (CreatePc N)
  failures : Nat
  oops : Bool

/-- The file of the namespace is open and stays so for the call. -/
def KniNet.Usable (s : KniNet T N) : Prop := s.deviceInUse = true ∧ s.closing = false

instance (s : KniNet T N) : Decidable s.Usable := inferInstanceAs (Decidable (_ ∧ _))

/-- The interface in the list whose net device is gone. -/
def KniNet.removing (s : KniNet T N) : Option (KniDev N) := s.writer.bind Writer.removed

section
variable [DecidableEq T]

def KniNet.goTo (s : KniNet T N) (t : T) (pc : Option (CreatePc N)) : KniNet T N :=
  { s with create := Function.update s.create t pc }

/-- `kni_check_param` for every interface in the list. -/
def KniNet.check (s : KniNet T N) (t : T) (name : CStr) (file : N) : KniNet T N :=
  if s.kniList.any fun dev => strncmp dev.name name rteKniNamesize = 0 then s.goTo t none
  else s.goTo t (some (.registering name file))

/-- `register_netdev`, with the name of the net device if it succeeds. -/
def KniNet.register (s : KniNet T N) (t : T) (name : CStr) (file : N) (ifname : Option CStr) :
    KniNet T N :=
  match ifname with
  | none => s.goTo t none
  | some ifname =>
    { s.goTo t (some (.starting ⟨name, ifname, .null, file⟩)) with
      registered := ifname :: s.registered }

/-- `kni_dev_remove` in `kni_run_thread`. -/
def KniNet.remove (s : KniNet T N) (t : T) (dev : KniDev N) : KniNet T N :=
  { s.goTo t none with registered := s.registered.erase dev.ifname }

/-- `kni_run_thread`; `created` is whether `kthread_create` succeeds. -/
def KniNet.runThread (multiple : Bool) (s : KniNet T N) (t : T) (dev : KniDev N)
    (created : Bool) : KniNet T N :=
  if multiple then
    if created then s.goTo t (some (.adding { dev with pthread := .running }))
    else { s.remove t dev with failures := s.failures + 1 }
  else if s.kniKthread = .null then
    if created then { s.goTo t (some (.adding dev)) with kniKthread := .running }
    else { s.remove t dev with kniKthread := .errPtr, failures := s.failures + 1 }
  else s.goTo t (some (.adding dev))

def KniNet.add (s : KniNet T N) (t : T) (dev : KniDev N) : KniNet T N :=
  { s.goTo t none with kniList := dev :: s.kniList }

end

/-- `kni_ioctl_release` up to `kni_dev_remove` of the first interface of that name, whose own
kernel thread is stopped before that: nothing reads `pthread` any more. -/
def KniNet.ioctlRelease (s : KniNet T N) (file : N) (name : CStr) : KniNet T N :=
  if name.length = 0 then s
  else
    match s.kniList.find? fun dev => strncmp dev.name name rteKniNamesize = 0 with
    | none => s
    | some dev =>
      { s with
        writer := some (.ioctl file dev)
        registered := s.registered.erase dev.ifname }

/-- `kni_release` up to the write lock. -/
def KniNet.stop (multiple : Bool) (s : KniNet T N) : KniNet T N :=
  { s with
    closing := true
    kniKthread := if multiple then s.kniKthread else .null
    failures := 0
    oops := s.oops || (!multiple && s.kniKthread = .errPtr) }

/-- `kni_dev_remove` in `kni_release`, likewise. -/
def KniNet.removeNext (s : KniNet T N) (dev : KniDev N) : KniNet T N :=
  { s with
    writer := some (.closing (some dev))
    registered := s.registered.erase dev.ifname }

/-- `list_del` -/
def KniNet.unlink [DecidableEq N] (s : KniNet T N) (dev : KniDev N) (writer : Option (Writer N)) :
    KniNet T N :=
  { s with kniList := s.kniList.erase dev, writer := writer }

def KniNet.closed (s : KniNet T N) : KniNet T N :=
  { s with deviceInUse := false, closing := false, writer := none }

section
variable [DecidableEq T] [DecidableEq N]

/-- One step in the namespace `n`. The name in an ioctl is checked to end within its field.
`register_netdev` takes a name that no net device has, the given one if it is not a pattern. A
file is closed when no ioctl over it is in progress. -/
inductive Step (multiple : Bool) : (N → KniNet T N) → (N → KniNet T N) → Prop where
  | kniOpen (w : N → KniNet T N) (n : N) (free : (w n).deviceInUse = false) :
      Step multiple w (Function.update w n { w n with deviceInUse := true })
  | ioctlCreate (w : N → KniNet T N) (n file : N) (t : T) (name : CStr)
      (usable : (w file).Usable) (idle : ∀ m, (w m).create t = none)
      (ended : name.length < rteKniNamesize) :
      Step multiple w (Function.update w n ((w n).goTo t (some (.checking name file))))
  | check (w : N → KniNet T N) (n : N) (t : T) (name : CStr) (file : N)
      (at_pc : (w n).create t = some (.checking name file)) (unlocked : (w n).writer = none) :
      Step multiple w (Function.update w n ((w n).check t name file))
  | register (w : N → KniNet T N) (n : N) (t : T) (name : CStr) (file : N)
      (ifname : Option CStr) (at_pc : (w n).create t = some (.registering name file))
      (taken : ∀ i, ifname = some i → i ∉ (w n).registered ∧ ('%' ∉ name → i = name)) :
      Step multiple w (Function.update w n ((w n).register t name file ifname))
  | runThread (w : N → KniNet T N) (n : N) (t : T) (dev : KniDev N) (created : Bool)
      (at_pc : (w n).create t = some (.starting dev)) :
      Step multiple w (Function.update w n ((w n).runThread multiple t dev created))
  | add (w : N → KniNet T N) (n : N) (t : T) (dev : KniDev N)
      (at_pc : (w n).create t = some (.adding dev)) (unlocked : (w n).writer = none) :
      Step multiple w (Function.update w n ((w n).add t dev))
  | ioctlRelease (w : N → KniNet T N) (n file : N) (name : CStr) (usable : (w file).Usable)
      (unlocked : (w n).writer = none) :
      Step multiple w (Function.update w n ((w n).ioctlRelease file name))
  | ioctlUnlink (w : N → KniNet T N) (n file : N) (dev : KniDev N)
      (locked : (w n).writer = some (.ioctl file dev)) :
      Step multiple w (Function.update w n ((w n).unlink dev none))
  | stop (w : N → KniNet T N) (n : N) (usable : (w n).Usable)
      (created : ∀ m t pc, (w m).create t = some pc → pc.file ≠ n)
      (released : ∀ m dev, (w m).writer ≠ some (.ioctl n dev)) :
      Step multiple w (Function.update w n ((w n).stop multiple))
  | lock (w : N → KniNet T N) (n : N) (closing : (w n).closing = true)
      (unlocked : (w n).writer = none) :
      Step multiple w (Function.update w n { w n with writer := some (.closing none) })
  | removeNext (w : N → KniNet T N) (n : N) (dev : KniDev N) (rest : List (KniDev N))
      (locked : (w n).writer = some (.closing none)) (first : (w n).kniList = dev :: rest) :
      Step multiple w (Function.update w n ((w n).removeNext dev))
  | unlinkNext (w : N → KniNet T N) (n : N) (dev : KniDev N)
      (locked : (w n).writer = some (.closing (some dev))) :
      Step multiple w (Function.update w n ((w n).unlink dev (some (.closing none))))
  | closed (w : N → KniNet T N) (n : N) (locked : (w n).writer = some (.closing none))
      (empty : (w n).kniList = []) :
      Step multiple w (Function.update w n (w n).closed)

/-- What `kni_init_net` leaves. -/
def KniNet.initial : KniNet T N where
  deviceInUse := false
  closing := false
  kniKthread := .null
  kniList := []
  writer := none
  registered := []
  create _ := none
  failures := 0
  oops := false

variable (T N) in
/-- The module in all namespaces; `multiple` is the mode of the kernel threads. -/
def kniModule (multiple : Bool) : System (N → KniNet T N) where
  Init w := w = fun _ => .initial
  Step := Step multiple

end
/-! ## Interfaces and the names of their net devices

An interface is in the list and not being removed, or a create in progress has it: `none` stands
for the list. -/

section
variable {O : Type u}

/-- Each registered name is that of one interface at one place. -/
structure Names (registered : List CStr) (Has : O → KniDev N → Prop) : Prop where
  apart : ∀ o p d e, Has o d → Has p e → d.ifname = e.ifname → o = p ∧ d = e
  nodup : registered.Nodup
  known : ∀ i, i ∈ registered ↔ ∃ o d, Has o d ∧ d.ifname = i
  named : ∀ o d, Has o d → '%' ∉ d.name → d.ifname = d.name

variable {registered : List CStr} {Has Has' : O → KniDev N → Prop}

theorem Names.congr (names : Names registered Has) (same : ∀ o d, Has' o d ↔ Has o d) :
    Names registered Has' := by
  have equal : Has' = Has := by
    funext o d
    exact propext (same o d)
  rw [equal]
  exact names

/-- A net device is registered under a new name. -/
theorem Names.insert (names : Names registered Has) (o : O) (dev : KniDev N)
    (fresh : dev.ifname ∉ registered) (named : '%' ∉ dev.name → dev.ifname = dev.name)
    (after : ∀ p d, Has' p d ↔ (p = o ∧ d = dev) ∨ Has p d) :
    Names (dev.ifname :: registered) Has' := by
  have other : ∀ p d, Has p d → d.ifname ≠ dev.ifname := fun p d hd same =>
    fresh ((names.known dev.ifname).mpr ⟨p, d, hd, same⟩)
  constructor
  · intro p q d e hd he same
    rcases (after p d).mp hd with ⟨rfl, rfl⟩ | hd
    · rcases (after q e).mp he with ⟨rfl, rfl⟩ | he
      · exact ⟨rfl, rfl⟩
      · exact False.elim (other q e he same.symm)
    · rcases (after q e).mp he with ⟨rfl, rfl⟩ | he
      · exact False.elim (other p d hd same)
      · exact names.apart p q d e hd he same
  · exact List.nodup_cons.mpr ⟨fresh, names.nodup⟩
  · intro i
    rw [List.mem_cons, names.known]
    constructor
    · rintro (rfl | ⟨p, d, hd, rfl⟩)
      · exact ⟨o, dev, (after o dev).mpr (.inl ⟨rfl, rfl⟩), rfl⟩
      · exact ⟨p, d, (after p d).mpr (.inr hd), rfl⟩
    · rintro ⟨p, d, hd, rfl⟩
      rcases (after p d).mp hd with ⟨rfl, rfl⟩ | hd
      · exact .inl rfl
      · exact .inr ⟨p, d, hd, rfl⟩
  · intro p d hd plain
    rcases (after p d).mp hd with ⟨rfl, rfl⟩ | hd
    · exact named plain
    · exact names.named p d hd plain

/-- A net device is removed. -/
theorem Names.erase (names : Names registered Has) {o : O} {dev : KniDev N} (has : Has o dev)
    (after : ∀ p d, Has' p d ↔ Has p d ∧ ¬ (p = o ∧ d = dev)) :
    Names (registered.erase dev.ifname) Has' := by
  refine ⟨fun p q d e hd he same => ?_, names.nodup.erase _, fun i => ?_, fun p d hd plain => ?_⟩
  · exact names.apart p q d e ((after p d).mp hd).1 ((after q e).mp he).1 same
  · rw [names.nodup.mem_erase_iff, names.known]
    constructor
    · rintro ⟨other, p, d, hd, rfl⟩
      refine ⟨p, d, (after p d).mpr ⟨hd, ?_⟩, rfl⟩
      rintro ⟨_, rfl⟩
      exact other rfl
    · rintro ⟨p, d, hd, rfl⟩
      obtain ⟨hd, other⟩ := (after p d).mp hd
      exact ⟨fun same => other (names.apart p o d dev hd has same), p, d, hd, rfl⟩
  · exact names.named p d ((after p d).mp hd).1 plain

/-- An interface changes its place, or something that is not its name. -/
theorem Names.move (names : Names registered Has) {o : O} {dev : KniDev N} (has : Has o dev)
    (o' : O) (dev' : KniDev N) (ifname : dev'.ifname = dev.ifname) (name : dev'.name = dev.name)
    (after : ∀ p d, Has' p d ↔ (p = o' ∧ d = dev') ∨ (Has p d ∧ ¬ (p = o ∧ d = dev))) :
    Names registered Has' := by
  have other : ∀ p d, Has p d → ¬ (p = o ∧ d = dev) → d.ifname ≠ dev'.ifname :=
    fun p d hd apart same => apart (names.apart p o d dev hd has (same.trans ifname))
  refine ⟨fun p q d e hd he same => ?_, names.nodup, fun i => ?_, fun p d hd plain => ?_⟩
  · rcases (after p d).mp hd with ⟨rfl, rfl⟩ | ⟨hd, hne⟩
    · rcases (after q e).mp he with ⟨rfl, rfl⟩ | ⟨he, hne⟩
      · exact ⟨rfl, rfl⟩
      · exact False.elim (other q e he hne same.symm)
    · rcases (after q e).mp he with ⟨rfl, rfl⟩ | ⟨he, _⟩
      · exact False.elim (other p d hd hne same)
      · exact names.apart p q d e hd he same
  · rw [names.known]
    constructor
    · rintro ⟨p, d, hd, rfl⟩
      by_cases moved : p = o ∧ d = dev
      · obtain ⟨rfl, rfl⟩ := moved
        exact ⟨o', dev', (after o' dev').mpr (.inl ⟨rfl, rfl⟩), ifname⟩
      · exact ⟨p, d, (after p d).mpr (.inr ⟨hd, moved⟩), rfl⟩
    · rintro ⟨p, d, hd, rfl⟩
      rcases (after p d).mp hd with ⟨rfl, rfl⟩ | ⟨hd, _⟩
      · exact ⟨o, dev, has, ifname.symm⟩
      · exact ⟨p, d, hd, rfl⟩
  · rcases (after p d).mp hd with ⟨rfl, rfl⟩ | ⟨hd, _⟩
    · rw [ifname, name]
      rw [name] at plain
      exact names.named o dev has plain
    · exact names.named p d hd plain

end

def KniNet.Has (s : KniNet T N) : Option T → KniDev N → Prop
  | none, dev => dev ∈ s.kniList ∧ s.removing ≠ some dev
  | some t, dev => (s.create t).bind CreatePc.dev = some dev

theorem has_create {s : KniNet T N} {t : T} {pc : CreatePc N} {dev : KniDev N}
    (at_pc : s.create t = some pc) (of_pc : pc.dev = some dev) : s.Has (some t) dev := by
  rw [KniNet.Has, at_pc]
  exact of_pc

theorem has_unlocked {s : KniNet T N} (unlocked : s.writer = none) (dev : KniDev N) :
    s.Has none dev ↔ dev ∈ s.kniList := by
  simp [KniNet.Has, KniNet.removing, unlocked]

theorem removing_eq {s : KniNet T N} {writer : Option (Writer N)} (locked : s.writer = writer) :
    s.removing = writer.bind Writer.removed := by
  rw [KniNet.removing, locked]

/-! ## What holds at every moment in a namespace -/

structure Lists (s : KniNet T N) : Prop where
  nodup : s.kniList.Nodup
  removing : ∀ dev, s.removing = some dev → dev ∈ s.kniList
  locked : ∀ removed, s.writer = some (.closing removed) → s.closing = true

/-- Creates over a file go on only while it is open. -/
structure Files (n : N) (s : KniNet T N) : Prop where
  create : ∀ t pc, s.create t = some pc → pc.file = n → s.Usable
  unused : s.deviceInUse = false → s.closing = false ∧ ∀ d ∈ s.kniList, d.file ≠ n

/-- An interface is listed, or has its kernel thread and is about to be. -/
def KniNet.Started (s : KniNet T N) (dev : KniDev N) : Prop :=
  dev ∈ s.kniList ∨ ∃ t, s.create t = some (.adding dev)

structure Threads (multiple : Bool) (n : N) (s : KniNet T N) : Prop where
  own : multiple = true → ∀ d, s.Started d → d.pthread = .running
  shared : multiple = false → s.closing = false → s.kniKthread = .null →
    ∀ d, s.Started d → d.file ≠ n
  failed : multiple = false → (s.kniKthread = .errPtr ↔ s.failures ≠ 0)

structure Inv (multiple : Bool) (n : N) (s : KniNet T N) : Prop where
  names : Names s.registered s.Has
  lists : Lists s
  files : Files n s
  threads : Threads multiple n s

section
variable {multiple : Bool} {n : N} {s : KniNet T N} [DecidableEq T]

theorem create_goTo {t u : T} {pc : Option (CreatePc N)} {c : CreatePc N}
    (h : (s.goTo t pc).create u = some c) : (u = t ∧ pc = some c) ∨ s.create u = some c := by
  by_cases same : u = t
  · subst same
    simp only [KniNet.goTo, Function.update_self] at h
    exact .inl ⟨rfl, h⟩
  · simp only [KniNet.goTo, Function.update_of_ne same] at h
    exact .inr h

theorem started_goTo {t : T} {pc : Option (CreatePc N)} {d : KniDev N}
    (h : (s.goTo t pc).Started d) : pc = some (.adding d) ∨ s.Started d := by
  rcases h with listed | ⟨u, hu⟩
  · exact .inr (.inl listed)
  · rcases create_goTo hu with ⟨_, new⟩ | old
    · exact .inl new
    · exact .inr (.inr ⟨u, old⟩)

theorem has_goTo (t : T) (pc : Option (CreatePc N)) (o : Option T) (d : KniDev N) :
    (s.goTo t pc).Has o d ↔ (o = some t ∧ pc.bind CreatePc.dev = some d) ∨
      (o ≠ some t ∧ s.Has o d) := by
  cases o with
  | none => simp [KniNet.Has, KniNet.goTo, KniNet.removing]
  | some u =>
    by_cases same : u = t
    · subst same
      simp [KniNet.Has, KniNet.goTo]
    · simp [KniNet.Has, KniNet.goTo, same]

/-- The interface that a create has goes on with it. -/
theorem has_moved {t : T} {dev : KniDev N} (has : s.Has (some t) dev) (dev' : KniDev N)
    (p : Option T) (d : KniDev N) : (s.goTo t (some (.adding dev'))).Has p d ↔
      (p = some t ∧ d = dev') ∨ (s.Has p d ∧ ¬ (p = some t ∧ d = dev)) := by
  rw [has_goTo, Option.bind_some, CreatePc.dev]
  constructor
  · rintro (⟨rfl, new⟩ | ⟨other, old⟩)
    · exact .inl ⟨rfl, (Option.some.inj new).symm⟩
    · exact .inr ⟨old, fun h => other h.1⟩
  · rintro (⟨rfl, rfl⟩ | ⟨old, other⟩)
    · exact .inl ⟨rfl, rfl⟩
    · refine .inr ⟨?_, old⟩
      rintro rfl
      exact other ⟨rfl, Option.some.inj (old.symm.trans has)⟩

/-- It leaves the create. -/
theorem has_left {t : T} {dev : KniDev N} (has : s.Has (some t) dev) (p : Option T)
    (d : KniDev N) : (s.goTo t none).Has p d ↔ s.Has p d ∧ ¬ (p = some t ∧ d = dev) := by
  rw [has_goTo]
  constructor
  · rintro (⟨_, h⟩ | ⟨other, old⟩)
    · cases h
    · exact ⟨old, fun h => other h.1⟩
  · rintro ⟨old, other⟩
    refine .inr ⟨?_, old⟩
    rintro rfl
    exact other ⟨rfl, Option.some.inj (old.symm.trans has)⟩

theorem Files.goTo (files : Files n s) {t : T} {pc : Option (CreatePc N)}
    (usable : ∀ c, pc = some c → c.file = n → s.Usable) : Files n (s.goTo t pc) := by
  refine ⟨fun u c hc own => ?_, files.unused⟩
  rcases create_goTo hc with ⟨_, new⟩ | old
  · exact usable c new own
  · exact files.create u c old own

/-- A create that goes on does so over its file. -/
theorem Files.next (files : Files n s) {t : T} {pc pc' : CreatePc N} (at_pc : s.create t = some pc)
    (file : pc'.file = pc.file) : Files n (s.goTo t (some pc')) := by
  refine files.goTo fun c hc own => ?_
  cases hc
  exact files.create t pc at_pc (file ▸ own)

theorem Files.done (files : Files n s) (t : T) : Files n (s.goTo t none) :=
  files.goTo fun c hc => by cases hc

theorem Threads.goTo (threads : Threads multiple n s) {t : T} {pc : Option (CreatePc N)}
    (waits : ∀ d, pc ≠ some (.adding d)) : Threads multiple n (s.goTo t pc) :=
  ⟨fun mode d hd => threads.own mode d ((started_goTo hd).resolve_left (waits d)),
    fun mode goes none d hd =>
      threads.shared mode goes none d ((started_goTo hd).resolve_left (waits d)),
    threads.failed⟩

/-- A create that has no interface goes on without one, or ends. -/
theorem Inv.goTo (inv : Inv multiple n s) {t : T} {pc : Option (CreatePc N)}
    (files : Files n (s.goTo t pc)) (before : (s.create t).bind CreatePc.dev = none)
    (now : pc.bind CreatePc.dev = none) : Inv multiple n (s.goTo t pc) := by
  refine ⟨inv.names.congr fun o d => ?_, ⟨inv.lists.nodup, inv.lists.removing, inv.lists.locked⟩,
    files, inv.threads.goTo ?_⟩
  · rw [has_goTo, now]
    constructor
    · rintro (⟨_, h⟩ | ⟨_, h⟩)
      · cases h
      · exact h
    · intro h
      refine .inr ⟨?_, h⟩
      rintro rfl
      rw [KniNet.Has, before] at h
      cases h
  · rintro d rfl
    cases now

theorem Inv.check (inv : Inv multiple n s) {t : T} {name : CStr} {file : N}
    (at_pc : s.create t = some (.checking name file)) : Inv multiple n (s.check t name file) := by
  have before : (s.create t).bind CreatePc.dev = none := by rw [at_pc]; rfl
  unfold KniNet.check
  split
  · exact inv.goTo (inv.files.done t) before rfl
  · exact inv.goTo (inv.files.next at_pc rfl) before rfl

theorem Inv.register (inv : Inv multiple n s) {t : T} {name : CStr} {file : N}
    {ifname : Option CStr} (at_pc : s.create t = some (.registering name file))
    (taken : ∀ i, ifname = some i → i ∉ s.registered ∧ ('%' ∉ name → i = name)) :
    Inv multiple n (s.register t name file ifname) := by
  have before : (s.create t).bind CreatePc.dev = none := by rw [at_pc]; rfl
  cases ifname with
  | none => exact inv.goTo (inv.files.done t) before rfl
  | some i =>
    obtain ⟨fresh, named⟩ := taken i rfl
    have files : Files n (s.goTo t (some (.starting ⟨name, i, .null, file⟩))) :=
      inv.files.next at_pc rfl
    have threads : Threads multiple n (s.goTo t (some (.starting ⟨name, i, .null, file⟩))) :=
      inv.threads.goTo fun d h => by cases h
    refine ⟨inv.names.insert (some t) ⟨name, i, .null, file⟩ fresh named fun p d => ?_,
      ⟨inv.lists.nodup, inv.lists.removing, inv.lists.locked⟩, ⟨files.create, files.unused⟩,
      ⟨threads.own, threads.shared, threads.failed⟩⟩
    have same : (s.register t name file (some i)).Has p d ↔
        (s.goTo t (some (.starting ⟨name, i, .null, file⟩))).Has p d := by
      cases p <;> exact Iff.rfl
    rw [same, has_goTo]
    constructor
    · rintro (⟨rfl, new⟩ | ⟨_, old⟩)
      · exact .inl ⟨rfl, (Option.some.inj new).symm⟩
      · exact .inr old
    · rintro (⟨rfl, rfl⟩ | old)
      · exact .inl ⟨rfl, rfl⟩
      · refine .inr ⟨?_, old⟩
        rintro rfl
        rw [KniNet.Has, before] at old
        cases old

/-- Where the kernel thread cannot be created, the interface goes. -/
theorem Inv.remove (inv : Inv multiple n s) {t : T} {dev : KniDev N}
    (at_pc : s.create t = some (.starting dev)) (kthread : KThread) (failures : Nat)
    (same : multiple = false → kthread ≠ .null ∧ (kthread = .errPtr ↔ failures ≠ 0)) :
    Inv multiple n { s.remove t dev with kniKthread := kthread, failures := failures } := by
  have has : s.Has (some t) dev := has_create at_pc rfl
  have files := inv.files.done t
  have threads : Threads multiple n (s.goTo t none) := inv.threads.goTo fun d h => by cases h
  exact ⟨inv.names.erase has (has_left has), ⟨inv.lists.nodup, inv.lists.removing,
    inv.lists.locked⟩, ⟨files.create, files.unused⟩, threads.own,
    fun mode _ none => False.elim ((same mode).1 none), fun mode => (same mode).2⟩

/-- With a kernel thread, it goes on to the list. -/
theorem Inv.started (inv : Inv multiple n s) {t : T} {dev : KniDev N}
    (at_pc : s.create t = some (.starting dev)) (pthread kthread : KThread)
    (own : multiple = true → pthread = .running)
    (same : multiple = false → kthread ≠ .null ∧ (kthread = .errPtr ↔ s.failures ≠ 0)) :
    Inv multiple n { s.goTo t (some (.adding { dev with pthread := pthread })) with
      kniKthread := kthread } := by
  have has : s.Has (some t) dev := has_create at_pc rfl
  have files : Files n (s.goTo t (some (.adding { dev with pthread := pthread }))) :=
    inv.files.next at_pc rfl
  refine ⟨inv.names.move has (some t) { dev with pthread := pthread } rfl rfl (has_moved has _),
    ⟨inv.lists.nodup, inv.lists.removing, inv.lists.locked⟩, ⟨files.create, files.unused⟩,
    fun mode d hd => ?_, fun mode _ none => False.elim ((same mode).1 none),
    fun mode => (same mode).2⟩
  have hd' : (s.goTo t (some (.adding { dev with pthread := pthread }))).Started d := hd
  rcases started_goTo hd' with new | old
  · cases new
    exact own mode
  · exact inv.threads.own mode d old

theorem Inv.runThread (inv : Inv multiple n s) {t : T} {dev : KniDev N} (created : Bool)
    (at_pc : s.create t = some (.starting dev)) :
    Inv multiple n (s.runThread multiple t dev created) := by
  cases multiple with
  | true =>
    cases created with
    | true => exact inv.started at_pc .running s.kniKthread (fun _ => rfl) fun h => by cases h
    | false => exact inv.remove at_pc s.kniKthread (s.failures + 1) fun h => by cases h
  | false =>
    simp only [KniNet.runThread, Bool.false_eq_true, if_false]
    split
    · rename_i null
      cases created with
      | true =>
        have failures := (inv.threads.failed rfl).not.mp (by rw [null]; decide)
        refine inv.started at_pc dev.pthread .running (fun h => by cases h) fun _ => ?_
        exact ⟨by decide, fun h => (by cases h), fun h => absurd h failures⟩
      | false =>
        refine inv.remove at_pc .errPtr (s.failures + 1) fun _ => ⟨by decide, ?_⟩
        exact ⟨fun _ => Nat.succ_ne_zero _, fun _ => rfl⟩
    · rename_i there
      exact inv.started at_pc dev.pthread s.kniKthread (fun h => by cases h)
        fun _ => ⟨there, inv.threads.failed rfl⟩

theorem Inv.add (inv : Inv multiple n s) {t : T} {dev : KniDev N}
    (at_pc : s.create t = some (.adding dev)) (unlocked : s.writer = none) :
    Inv multiple n (s.add t dev) := by
  have has : s.Has (some t) dev := has_create at_pc rfl
  have new : dev ∉ s.kniList := fun old => Option.some_ne_none t
    (inv.names.apart (some t) none dev dev has ((has_unlocked unlocked dev).mpr old) rfl).1
  have files := inv.files.done t
  have started : ∀ d, (s.add t dev).Started d → s.Started d := by
    rintro d (listed | ⟨u, hu⟩)
    · rcases List.mem_cons.mp listed with rfl | old
      · exact .inr ⟨t, at_pc⟩
      · exact .inl old
    · rcases create_goTo hu with ⟨_, none⟩ | old
      · cases none
      · exact .inr ⟨u, old⟩
  refine ⟨inv.names.move has none dev rfl rfl fun p d => ?_, ⟨List.nodup_cons.mpr
    ⟨new, inv.lists.nodup⟩, fun d hd => List.mem_cons_of_mem _ (inv.lists.removing d hd),
    inv.lists.locked⟩, ⟨files.create, fun free => ?_⟩,
    fun mode d hd => inv.threads.own mode d (started d hd),
    fun mode goes none d hd => inv.threads.shared mode goes none d (started d hd),
    inv.threads.failed⟩
  · rw [← has_left has p d]
    cases p with
    | none =>
      rw [has_unlocked (s := s.add t dev) unlocked, has_unlocked (s := s.goTo t none) unlocked]
      simp [KniNet.add, KniNet.goTo]
    | some u => simp [KniNet.Has, KniNet.add]
  · obtain ⟨open', others⟩ := inv.files.unused free
    refine ⟨open', List.forall_mem_cons.mpr ⟨fun own => ?_, others⟩⟩
    have used := (inv.files.create t _ at_pc own).1
    rw [show s.deviceInUse = false from free] at used
    cases used

end

section
variable {multiple : Bool} {n : N} {s : KniNet T N}

theorem Inv.kniOpen (inv : Inv multiple n s) : Inv multiple n { s with deviceInUse := true } := by
  refine ⟨inv.names.congr fun p d => ?_,
    ⟨inv.lists.nodup, inv.lists.removing, inv.lists.locked⟩,
    ⟨fun t pc at_pc own => ⟨rfl, (inv.files.create t pc at_pc own).2⟩, fun used => ?_⟩,
    ⟨inv.threads.own, inv.threads.shared, inv.threads.failed⟩⟩
  · cases p <;> exact Iff.rfl
  · cases used

/-- A net device is removed, and its interface is still in the list. -/
theorem Inv.unregister (inv : Inv multiple n s) {dev : KniDev N} (there : dev ∈ s.kniList)
    (nothing : s.removing = none) (writer : Writer N) (removed : writer.removed = some dev)
    (locked : ∀ r, writer = .closing r → s.closing = true) :
    Inv multiple n { s with
      writer := some writer, registered := s.registered.erase dev.ifname } := by
  have has : s.Has none dev := ⟨there, by rw [nothing]; exact (Option.some_ne_none dev).symm⟩
  refine ⟨inv.names.erase has fun p d => ?_, ⟨inv.lists.nodup, fun d hd => ?_, fun r hr => ?_⟩,
    ⟨inv.files.create, inv.files.unused⟩,
    ⟨inv.threads.own, inv.threads.shared, inv.threads.failed⟩⟩
  · cases p with
    | none => simp [KniNet.Has, KniNet.removing, removed, show s.writer.bind Writer.removed = none
        from nothing, eq_comm]
    | some u => simp [KniNet.Has]
  · rw [KniNet.removing, Option.bind_some, removed] at hd
    cases hd
    exact there
  · exact locked r (Option.some.inj hr)

theorem Inv.ioctlRelease (inv : Inv multiple n s) (file : N) (name : CStr)
    (unlocked : s.writer = none) : Inv multiple n (s.ioctlRelease file name) := by
  unfold KniNet.ioctlRelease
  split
  · exact inv
  · split
    · exact inv
    · rename_i dev found
      exact inv.unregister (List.mem_of_find?_eq_some found) (removing_eq unlocked)
        (.ioctl file dev) rfl fun r h => by cases h

/-- The entry goes after the net device. -/
theorem Inv.unlink [DecidableEq N] (inv : Inv multiple n s) {dev : KniDev N}
    (removing : s.removing = some dev) {writer : Option (Writer N)}
    (nothing : writer.bind Writer.removed = none)
    (locked : ∀ r, writer = some (.closing r) → s.closing = true) :
    Inv multiple n (s.unlink dev writer) := by
  have fewer : ∀ d, d ∈ s.kniList.erase dev ↔ d ∈ s.kniList ∧ d ≠ dev := fun d => by
    rw [inv.lists.nodup.mem_erase_iff, and_comm]
  have started : ∀ d, (s.unlink dev writer).Started d → s.Started d := fun d hd =>
    hd.imp_left fun listed => ((fewer d).mp listed).1
  refine ⟨inv.names.congr fun p d => ?_, ⟨inv.lists.nodup.erase _, fun d hd => ?_, locked⟩,
    ⟨inv.files.create, fun free => ?_⟩, fun mode d hd => inv.threads.own mode d (started d hd),
    fun mode goes none d hd => inv.threads.shared mode goes none d (started d hd),
    inv.threads.failed⟩
  · cases p with
    | none => simp [KniNet.Has, KniNet.unlink, KniNet.removing, nothing, fewer,
        show s.writer.bind Writer.removed = some dev from removing, eq_comm]
    | some u => exact Iff.rfl
  · rw [KniNet.removing, show (s.unlink dev writer).writer.bind Writer.removed = none
      from nothing] at hd
    cases hd
  · obtain ⟨open', others⟩ := inv.files.unused free
    exact ⟨open', fun d hd => others d ((fewer d).mp hd).1⟩

theorem Inv.stop (inv : Inv multiple n s) (usable : s.Usable)
    (created : ∀ t pc, s.create t = some pc → pc.file ≠ n) : Inv multiple n (s.stop multiple) := by
  refine ⟨inv.names.congr fun p d => ?_, ⟨inv.lists.nodup, inv.lists.removing, fun _ _ => rfl⟩,
    ⟨fun t pc at_pc own => False.elim (created t pc at_pc own), fun free => ?_⟩,
    inv.threads.own, fun _ goes => Bool.noConfusion goes, fun mode => ?_⟩
  · cases p <;> exact Iff.rfl
  · rw [show (s.stop multiple).deviceInUse = true from usable.1] at free
    cases free
  · simp [KniNet.stop, mode]

theorem Inv.lock (inv : Inv multiple n s) (closing : s.closing = true)
    (unlocked : s.writer = none) : Inv multiple n { s with writer := some (.closing none) } := by
  refine ⟨inv.names.congr fun p d => ?_, ⟨inv.lists.nodup, fun d hd => ?_, fun _ _ => closing⟩,
    ⟨inv.files.create, inv.files.unused⟩,
    ⟨inv.threads.own, inv.threads.shared, inv.threads.failed⟩⟩
  · cases p with
    | none =>
      rw [has_unlocked unlocked]
      simp [KniNet.Has, KniNet.removing, Writer.removed]
    | some u => exact Iff.rfl
  · cases hd

theorem Inv.closed (inv : Inv multiple n s) (locked : s.writer = some (.closing none))
    (empty : s.kniList = []) : Inv multiple n s.closed := by
  have closing := inv.lists.locked none locked
  have foreign : ∀ t pc, s.create t = some pc → pc.file ≠ n := by
    intro t pc at_pc own
    have goes := (inv.files.create t pc at_pc own).2
    rw [closing] at goes
    cases goes
  refine ⟨inv.names.congr fun p d => ?_, ⟨inv.lists.nodup, fun d hd => ?_, fun r hr => ?_⟩,
    ⟨fun t pc at_pc own => False.elim (foreign t pc at_pc own), fun _ => ⟨rfl, ?_⟩⟩,
    inv.threads.own, fun mode _ _ d hd => ?_, inv.threads.failed⟩
  · cases p with
    | none => simp [KniNet.Has, KniNet.closed, empty]
    | some u => exact Iff.rfl
  · cases hd
  · cases hr
  · rw [show s.closed.kniList = [] from empty]
    exact fun d hd => absurd hd List.not_mem_nil
  · rcases hd with listed | ⟨t, at_pc⟩
    · rw [show s.closed.kniList = [] from empty] at listed
      cases listed
    · exact foreign t _ at_pc

theorem Inv.initial (multiple : Bool) (n : N) :
    Inv multiple n (KniNet.initial : KniNet T N) := by
  have nobody : ∀ o d, ¬ (KniNet.initial : KniNet T N).Has o d := by
    intro o d h
    cases o with
    | none => cases h.1
    | some t => cases h
  have none : ∀ d, ¬ (KniNet.initial : KniNet T N).Started d := by
    rintro d (h | ⟨t, h⟩) <;> cases h
  refine ⟨⟨fun o p d e hd => False.elim (nobody o d hd), List.nodup_nil,
      fun i => ⟨fun h => absurd h List.not_mem_nil, ?_⟩,
      fun o d hd => False.elim (nobody o d hd)⟩,
    ⟨List.nodup_nil, fun d h => (by cases h), fun r h => (by cases h)⟩,
    ⟨fun t pc h => (by cases h), fun _ => ⟨rfl, fun d h => absurd h List.not_mem_nil⟩⟩,
    fun _ d h => absurd h (none d), fun _ _ _ d h => absurd h (none d),
    fun _ => ⟨fun h => (by cases h), fun h => absurd rfl h⟩⟩
  rintro ⟨o, d, hd, _⟩
  exact False.elim (nobody o d hd)

end

theorem update_inv [DecidableEq N] {multiple : Bool} {w : N → KniNet T N} {n : N}
    {s : KniNet T N} (inv : ∀ m, Inv multiple m (w m)) (here : Inv multiple n s) (m : N) :
    Inv multiple m (Function.update w n s m) := by
  by_cases same : m = n
  · subst same
    rw [Function.update_self]
    exact here
  · rw [Function.update_of_ne same]
    exact inv m

theorem reachable_inv [DecidableEq T] [DecidableEq N] {multiple : Bool} {w : N → KniNet T N}
    (h : (kniModule T N multiple).Reachable w) (n : N) : Inv multiple n (w n) := by
  refine h.invariant (I := fun w => ∀ n, Inv multiple n (w n)) ?_ ?_ n
  · rintro w rfl
    exact Inv.initial multiple
  · intro w w' inv step
    cases step with
    | kniOpen n free => exact update_inv inv (inv n).kniOpen
    | ioctlCreate n file t name usable idle ended =>
      refine update_inv inv ((inv n).goTo ((inv n).files.goTo fun c hc own => ?_) ?_ rfl)
      · cases hc
        exact own ▸ usable
      · rw [idle]
        rfl
    | check n t name file at_pc unlocked => exact update_inv inv ((inv n).check at_pc)
    | register n t name file ifname at_pc taken =>
      exact update_inv inv ((inv n).register at_pc taken)
    | runThread n t dev created at_pc => exact update_inv inv ((inv n).runThread created at_pc)
    | add n t dev at_pc unlocked => exact update_inv inv ((inv n).add at_pc unlocked)
    | ioctlRelease n file name usable unlocked =>
      exact update_inv inv ((inv n).ioctlRelease file name unlocked)
    | ioctlUnlink n file dev locked =>
      exact update_inv inv ((inv n).unlink (removing_eq locked) rfl fun r h => by cases h)
    | stop n usable created released =>
      exact update_inv inv ((inv n).stop usable (created n))
    | lock n closing unlocked => exact update_inv inv ((inv n).lock closing unlocked)
    | removeNext n dev rest locked first =>
      refine update_inv inv ((inv n).unregister ?_ (removing_eq locked) _ rfl fun _ _ => ?_)
      · rw [first]
        exact List.mem_cons_self
      · exact (inv n).lists.locked none locked
    | unlinkNext n dev locked =>
      exact update_inv inv ((inv n).unlink (removing_eq locked) rfl fun _ _ =>
        (inv n).lists.locked (some dev) locked)
    | closed n locked empty => exact update_inv inv ((inv n).closed locked empty)

/-! ## Three runs -/

inductive Move where
  | kniOpen (n : Bool)
  | ioctlCreate (n file t : Bool) (name : CStr)
  | check (n t : Bool)
  | register (n t : Bool) (ifname : Option CStr)
  | runThread (n t created : Bool)
  | add (n t : Bool)
  | ioctlRelease (n file : Bool) (name : CStr)
  | stop (n : Bool)
  | lock (n : Bool)
  | removeNext (n : Bool)
  | unlinkNext (n : Bool)
  | closed (n : Bool)

/-- The thread is in no call. -/
def Idle (w : Bool → KniNet Bool Bool) (t : Bool) : Prop :=
  (w false).create t = none ∧ (w true).create t = none

instance (w : Bool → KniNet Bool Bool) (t : Bool) : Decidable (Idle w t) :=
  inferInstanceAs (Decidable (_ ∧ _))

/-- The namespace of the move and what it becomes. -/
def exec (multiple : Bool) (w : Bool → KniNet Bool Bool) :
    Move → Option (Bool × KniNet Bool Bool)
  | .kniOpen n =>
    if (w n).deviceInUse = false then some (n, { w n with deviceInUse := true }) else none
  | .ioctlCreate n file t name =>
    if (w file).Usable ∧ Idle w t ∧ name.length < rteKniNamesize then
      some (n, (w n).goTo t (some (.checking name file)))
    else none
  | .check n t =>
    match (w n).create t with
    | some (.checking name file) =>
      if (w n).writer = none then some (n, (w n).check t name file) else none
    | _ => none
  | .register n t ifname =>
    match (w n).create t with
    | some (.registering name file) =>
      if ifname.all fun i => i ∉ (w n).registered ∧ ('%' ∉ name → i = name) then
        some (n, (w n).register t name file ifname)
      else none
    | _ => none
  | .runThread n t created =>
    match (w n).create t with
    | some (.starting dev) => some (n, (w n).runThread multiple t dev created)
    | _ => none
  | .add n t =>
    match (w n).create t with
    | some (.adding dev) => if (w n).writer = none then some (n, (w n).add t dev) else none
    | _ => none
  | .ioctlRelease n file name =>
    if (w file).Usable ∧ (w n).writer = none then some (n, (w n).ioctlRelease file name)
    else none
  | .stop n =>
    if (w n).Usable ∧ (Idle w false ∧ Idle w true) ∧
        (w false).writer = none ∧ (w true).writer = none then
      some (n, (w n).stop multiple)
    else none
  | .lock n =>
    if (w n).closing = true ∧ (w n).writer = none then
      some (n, { w n with writer := some (.closing none) })
    else none
  | .removeNext n =>
    match (w n).kniList with
    | dev :: _ =>
      if (w n).writer = some (.closing none) then some (n, (w n).removeNext dev) else none
    | [] => none
  | .unlinkNext n =>
    match (w n).writer with
    | some (.closing (some dev)) => some (n, (w n).unlink dev (some (.closing none)))
    | _ => none
  | .closed n =>
    if (w n).writer = some (.closing none) ∧ (w n).kniList = [] then some (n, (w n).closed)
    else none

theorem exec_step {multiple : Bool} {w : Bool → KniNet Bool Bool} {mv : Move}
    {r : Bool × KniNet Bool Bool} (h : exec multiple w mv = some r) :
    Step multiple w (Function.update w r.1 r.2) := by
  cases mv with
  | kniOpen n =>
    simp only [exec] at h
    split at h
    · rename_i free
      cases h
      exact .kniOpen w n free
    · cases h
  | ioctlCreate n file t name =>
    simp only [exec] at h
    split at h
    · rename_i ready
      cases h
      exact .ioctlCreate w n file t name ready.1 (Bool.forall_bool.mpr ready.2.1) ready.2.2
    · cases h
  | check n t =>
    simp only [exec] at h
    split at h
    · rename_i name file at_pc
      split at h
      · rename_i unlocked
        cases h
        exact .check w n t name file at_pc unlocked
      · cases h
    · cases h
  | register n t ifname =>
    simp only [exec] at h
    split at h
    · rename_i name file at_pc
      split at h
      · rename_i taken
        cases h
        refine .register w n t name file ifname at_pc fun i hi => ?_
        rw [hi] at taken
        simpa only [Option.all_some, decide_eq_true_eq] using taken
      · cases h
    · cases h
  | runThread n t created =>
    simp only [exec] at h
    split at h
    · rename_i dev at_pc
      cases h
      exact .runThread w n t dev created at_pc
    · cases h
  | add n t =>
    simp only [exec] at h
    split at h
    · rename_i dev at_pc
      split at h
      · rename_i unlocked
        cases h
        exact .add w n t dev at_pc unlocked
      · cases h
    · cases h
  | ioctlRelease n file name =>
    simp only [exec] at h
    split at h
    · rename_i ready
      cases h
      exact .ioctlRelease w n file name ready.1 ready.2
    · cases h
  | stop n =>
    simp only [exec] at h
    split at h
    · rename_i ready
      obtain ⟨usable, idle, unlocked⟩ := ready
      cases h
      refine .stop w n usable (fun m t pc at_pc => ?_) fun m dev locked => ?_
      · have none : ∀ t m, (w m).create t = none :=
          Bool.forall_bool.mpr (idle.imp Bool.forall_bool.mpr Bool.forall_bool.mpr)
        rw [none t m] at at_pc
        cases at_pc
      · have none : ∀ m, (w m).writer = none := Bool.forall_bool.mpr unlocked
        rw [none m] at locked
        cases locked
    · cases h
  | lock n =>
    simp only [exec] at h
    split at h
    · rename_i ready
      cases h
      exact .lock w n ready.1 ready.2
    · cases h
  | removeNext n =>
    simp only [exec] at h
    split at h
    · rename_i dev rest first
      split at h
      · rename_i locked
        cases h
        exact .removeNext w n dev rest locked first
      · cases h
    · cases h
  | unlinkNext n =>
    simp only [exec] at h
    split at h
    · rename_i dev locked
      cases h
      exact .unlinkNext w n dev locked
    · cases h
  | closed n =>
    simp only [exec] at h
    split at h
    · rename_i ready
      cases h
      exact .closed w n ready.1 ready.2
    · cases h

/-- A run with one kernel thread for all interfaces. -/
def run (moves : List Move) : Option (Bool → KniNet Bool Bool) :=
  System.follow (fun mv w => (exec false w mv).map fun r => Function.update w r.1 r.2) moves
    fun _ => .initial

theorem run_reachable {moves : List Move} {w : Bool → KniNet Bool Bool}
    (h : run moves = some w) : (kniModule Bool Bool false).Reachable w := by
  refine (System.Reachable.init (S := kniModule Bool Bool false) rfl).follow (fun mv w w' h => ?_) h
  obtain ⟨r, hr, rfl⟩ := Option.map_eq_some_iff.mp h
  exact exec_step hr

/-- Two threads create one name, and both find it free. The net device of the second is
registered while the release of the first one's interface has not yet taken its entry away. -/
def replaced : List Move :=
  [.kniOpen false, .ioctlCreate false false false ['v'], .ioctlCreate false false true ['v'],
    .check false false, .check false true, .register false false (some ['v']),
    .runThread false false true, .add false false, .ioctlRelease false false ['v'],
    .register false true (some ['v'])]

theorem replaced_runs : (run replaced).map (fun w =>
    (w false).kniList = [⟨['v'], ['v'], .null, false⟩] &&
      (w false).create true = some (.starting ⟨['v'], ['v'], .null, false⟩)) = some true := by
  decide +kernel

/-- A process creates an interface in the namespace of its file and, after `setns`, another one
over the same file; then it closes the file. -/
def foreign : List Move :=
  [.kniOpen false, .ioctlCreate false false false ['a'], .check false false,
    .register false false (some ['a']), .runThread false false true, .add false false,
    .ioctlCreate true false false ['b'], .check true false, .register true false (some ['b']),
    .runThread true false true, .add true false, .stop false, .lock false, .removeNext false,
    .unlinkNext false, .closed false]

theorem foreign_runs : (run foreign).map (fun w =>
    ((w false).registered = [] && (w true).registered = [['b']]) &&
      (w true).deviceInUse = false) = some true := by
  decide +kernel

/-- The kernel thread cannot be created for the first interface. -/
def noThread : List Move :=
  [.kniOpen false, .ioctlCreate false false false ['a'], .check false false,
    .register false false (some ['a']), .runThread false false false,
    .ioctlCreate false false false ['b'], .check false false,
    .register false false (some ['b']), .runThread false false true, .add false false]

theorem noThread_runs : (run noThread).map (fun w =>
    ((w false).kniList = [⟨['b'], ['b'], .null, false⟩] && (w false).writer = none) &&
      ((w false).failures = 1 && (w false).closing = false)) = some true := by
  decide +kernel

/-! ## What a process can rely on -/

section
variable [DecidableEq T] [DecidableEq N] {multiple : Bool} {w : N → KniNet T N}

/-- However creates and releases overlap, no two interfaces of a namespace have one name, in the
list or on their way there, unless it is a pattern. -/
theorem names_unique (h : (kniModule T N multiple).Reachable w) (n : N) :
    (w n).kniList.Nodup ∧
      ∀ o p d e, (w n).Has o d → (w n).Has p e → d.name = e.name → '%' ∉ d.name →
        o = p ∧ d = e := by
  have inv := reachable_inv h n
  refine ⟨inv.lists.nodup, fun o p d e hd he same plain => ?_⟩
  have ifnames : d.ifname = e.ifname := by
    rw [inv.names.named o d hd plain, inv.names.named p e he (same ▸ plain), same]
  exact inv.names.apart o p d e hd he ifnames

/-- The second interface is the only one of its name, though the first one's entry is there. -/
theorem names_unique_replaced : ∃ w, run replaced = some w ∧
    (w false).kniList = [⟨['v'], ['v'], .null, false⟩] ∧
    ∀ p e, (w false).Has p e → ['v'] = e.name →
      some true = p ∧ ⟨['v'], ['v'], .null, false⟩ = e := by
  obtain ⟨w, hw, facts⟩ := Option.map_eq_some_iff.mp replaced_runs
  simp only [Bool.and_eq_true, decide_eq_true_eq] at facts
  obtain ⟨listed, second⟩ := facts
  have has : (w false).Has (some true) ⟨['v'], ['v'], .null, false⟩ := has_create second rfl
  exact ⟨w, hw, listed, fun p e he same =>
    (names_unique (run_reachable hw) false).2 _ p _ e has he same (by decide)⟩

/-- Every net device that is registered belongs to one interface that is listed or on its way
there. When the file of the namespace is not open, only interfaces created over the file of
another one are left. -/
theorem no_orphans (h : (kniModule T N multiple).Reachable w) (n : N) :
    ((w n).registered.Nodup ∧ (w n).kniList.Nodup) ∧
      (∀ i ∈ (w n).registered,
        ∃! x : Option T × KniDev N, (w n).Has x.1 x.2 ∧ x.2.ifname = i) ∧
      (∀ o d, (w n).Has o d → d.ifname ∈ (w n).registered) ∧
      ((w n).deviceInUse = false → ∀ o d, (w n).Has o d → d.file ≠ n) := by
  have inv := reachable_inv h n
  refine ⟨⟨inv.names.nodup, inv.lists.nodup⟩, fun i hi => ?_, fun o d hd => ?_,
    fun free o d hd own => ?_⟩
  · obtain ⟨o, d, hd, rfl⟩ := (inv.names.known i).mp hi
    refine ⟨(o, d), ⟨hd, rfl⟩, ?_⟩
    rintro ⟨p, e⟩ ⟨he, same⟩
    obtain ⟨rfl, rfl⟩ := inv.names.apart p o e d he hd same
    rfl
  · exact (inv.names.known _).mpr ⟨o, d, hd, rfl⟩
  · cases o with
    | none => exact (inv.files.unused free).2 d hd.1 own
    | some t =>
      obtain ⟨pc, at_pc, of_pc⟩ := Option.bind_eq_some_iff.mp hd
      have used := (inv.files.create t pc at_pc (pc.file_of_dev of_pc ▸ own)).1
      rw [free] at used
      cases used

/-- The interface that was created after `setns` is left. -/
theorem no_orphans_foreign : ∃ w, run foreign = some w ∧
    (w false).registered = [] ∧ (w true).deviceInUse = false ∧
    ∃! x : Option Bool × KniDev Bool,
      ((w true).Has x.1 x.2 ∧ x.2.ifname = ['b']) ∧ x.2.file ≠ true := by
  obtain ⟨w, hw, facts⟩ := Option.map_eq_some_iff.mp foreign_runs
  simp only [Bool.and_eq_true, decide_eq_true_eq] at facts
  obtain ⟨⟨gone, left⟩, free⟩ := facts
  obtain ⟨_, one, _, others⟩ := no_orphans (run_reachable hw) true
  obtain ⟨x, hx, only⟩ := one ['b'] (left ▸ List.mem_singleton.mpr rfl)
  exact ⟨w, hw, gone, free, x, ⟨hx, others free x.1 x.2 hx.1⟩, fun y hy => only y hy.1⟩

/-- A kernel thread works on the interface. -/
def KniNet.Served (multiple : Bool) (s : KniNet T N) (dev : KniDev N) : Prop :=
  if multiple then dev.pthread = .running else s.kniKthread = .running

/-- With one thread for all interfaces, none that was created over the file of its namespace is
served once that thread could not be created since the file was last closed, and closing the
file stops an error pointer. -/
theorem served_iff (h : (kniModule T N multiple).Reachable w) {n : N} {dev : KniDev N}
    (listed : (w n).Has none dev)
    (own : multiple = false → dev.file = n ∧ (w n).closing = false) :
    ((w n).Served multiple dev ↔ multiple = true ∨ (w n).failures = 0) ∧
      ((w n).Served multiple dev ∨ ((w n).stop multiple).oops = true) := by
  have threads := (reachable_inv h n).threads
  cases multiple with
  | true =>
    have served : (w n).Served true dev := threads.own rfl dev (.inl listed.1)
    exact ⟨⟨fun _ => .inl rfl, fun _ => served⟩, .inl served⟩
  | false =>
    obtain ⟨file, goes⟩ := own rfl
    have there : (w n).kniKthread ≠ .null := fun none =>
      threads.shared rfl goes none dev (.inl listed.1) file
    have failed := threads.failed rfl
    simp only [KniNet.Served, KniNet.stop, Bool.false_eq_true, if_false, false_or]
    cases thread : (w n).kniKthread with
    | null => exact False.elim (there thread)
    | running =>
      rw [thread] at failed
      simpa using failed
    | errPtr =>
      rw [thread] at failed
      simpa using failed

/-- The second interface is there, and nothing serves it. -/
theorem served_iff_noThread : ∃ w, run noThread = some w ∧
    ¬ (w false).Served false ⟨['b'], ['b'], .null, false⟩ ∧
    ((w false).stop false).oops = true := by
  obtain ⟨w, hw, facts⟩ := Option.map_eq_some_iff.mp noThread_runs
  simp only [Bool.and_eq_true, decide_eq_true_eq] at facts
  obtain ⟨⟨list, unlocked⟩, failures, goes⟩ := facts
  have listed : (w false).Has none ⟨['b'], ['b'], .null, false⟩ :=
    (has_unlocked unlocked _).mpr (list ▸ List.mem_singleton.mpr rfl)
  obtain ⟨served, closing⟩ := served_iff (run_reachable hw) listed fun _ => ⟨rfl, goes⟩
  have starved : ¬ (w false).Served false ⟨['b'], ['b'], .null, false⟩ := by
    rw [served, failures]
    decide
  exact ⟨w, hw, starved, closing.resolve_left starved⟩

end

end KniDevices
