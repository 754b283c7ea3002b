import DpdkFilter.Interleaving
import DpdkFilter.RingBuffer

/-!
# A ring shared by one producer and one consumer

Each side works in single loads and stores and no lock is held: a put loads both
positions, stores into free slots and publishes the new write position last; a
get loads both positions, reads slots and publishes the new read position last.
With one party at each end nothing is lost, duplicated or reordered.
-/

namespace SpscRing

open RingBuffer Interleaving

universe u
variable {α : Type u}

/-- The shared words. -/
structure Words (α : Type u) where
  write : Nat
  read : Nat
  buffer : Nat → α

/-- A put between two of its accesses; `i` elements of `data` are stored so far. -/
inductive PutPc (α : Type u) where
  | loadWrite (data : List α)
  | loadRead (data : List α) (write : Nat)
  | store (data : List α) (i write read : Nat)
  | publish (data : List α) (i write : Nat)

/-- A get between two of its accesses; `got` holds what it has read so far. -/
inductive GetPc (α : Type u) where
  | loadRead (num : Nat)
  | loadWrite (num read : Nat)
  | load (num read write : Nat) (got : List α)
  | publish (read : Nat) (got : List α)

/-- One access of a put, with the number stored once it returns. -/
def PutPc.step (N : Nat) (f : Words α) : PutPc α → Words α × (PutPc α ⊕ Nat)
  | .loadWrite data => (f, .inl (.loadRead data f.write))
  | .loadRead data write => (f, .inl (.store data 0 write f.read))
  | .store data i write read =>
    match data[i]? with
    | none => (f, .inl (.publish data i write))
    | some x =>
      if next N write = read then (f, .inl (.publish data i write))
      else ({ f with buffer := Function.update f.buffer write x },
        .inl (.store data (i + 1) (next N write) read))
  | .publish _ i write => ({ f with write := write }, .inr i)

/-- One access of a get, with what it read once it returns. -/
def GetPc.step (N : Nat) (f : Words α) : GetPc α → Words α × (GetPc α ⊕ List α)
  | .loadRead num => (f, .inl (.loadWrite num f.read))
  | .loadWrite num read => (f, .inl (.load num read f.write []))
  | .load num read write got =>
    if got.length = num ∨ read = write then (f, .inl (.publish read got))
    else (f, .inl (.load num (next N read) write (got ++ [f.buffer read])))
  | .publish read got => ({ f with read := read }, .inr got)

theorem PutPc.step_end {N : Nat} (f : Words α) {data : List α} {i : Nat} (write read : Nat)
    (h : data[i]? = none) :
    (PutPc.store data i write read).step N f = (f, .inl (.publish data i write)) := by
  simp [PutPc.step, h]

theorem PutPc.step_full {N : Nat} (f : Words α) {data : List α} {i write read : Nat} {x : α}
    (h : data[i]? = some x) (full : next N write = read) :
    (PutPc.store data i write read).step N f = (f, .inl (.publish data i write)) := by
  simp [PutPc.step, h, full]

theorem PutPc.step_store {N : Nat} (f : Words α) {data : List α} {i write read : Nat} {x : α}
    (h : data[i]? = some x) (free : next N write ≠ read) :
    (PutPc.store data i write read).step N f =
      ({ f with buffer := Function.update f.buffer write x },
        .inl (.store data (i + 1) (next N write) read)) := by
  simp [PutPc.step, h, free]

theorem GetPc.step_stop {N : Nat} (f : Words α) {num read write : Nat} {got : List α}
    (stop : got.length = num ∨ read = write) :
    (GetPc.load num read write got).step N f = (f, .inl (.publish read got)) := by
  simp [GetPc.step, stop]

theorem GetPc.step_load {N : Nat} (f : Words α) {num read write : Nat} {got : List α}
    (more : ¬ (got.length = num ∨ read = write)) :
    (GetPc.load num read write got).step N f =
      (f, .inl (.load num (next N read) write (got ++ [f.buffer read]))) := by
  simp [GetPc.step, more]

/-- A put that nothing interrupts runs to its end. -/
inductive PutPc.Runs (N : Nat) : Words α → PutPc α → Words α → Nat → Prop where
  | done {f f' : Words α} {pc : PutPc α} {n : Nat} (h : pc.step N f = (f', .inr n)) :
      Runs N f pc f' n
  | more {f f' f'' : Words α} {pc pc' : PutPc α} {n : Nat} (h : pc.step N f = (f', .inl pc'))
      (rest : Runs N f' pc' f'' n) : Runs N f pc f'' n

inductive GetPc.Runs (N : Nat) : Words α → GetPc α → Words α → List α → Prop where
  | done {f f' : Words α} {pc : GetPc α} {got : List α} (h : pc.step N f = (f', .inr got)) :
      Runs N f pc f' got
  | more {f f' f'' : Words α} {pc pc' : GetPc α} {got : List α} (h : pc.step N f = (f', .inl pc'))
      (rest : Runs N f' pc' f'' got) : Runs N f pc f'' got

/-- What the next access of a put makes visible to the consumer. -/
def PutPc.published : PutPc α → List α
  | .publish data i _ => data.take i
  | _ => []

/-- What the next access of a get hands back to the producer's side as free. -/
def GetPc.taken : GetPc α → List α
  | .publish _ got => got
  | _ => []

/-- The ring with the calls in progress at its two ends and what went through it. -/
structure State (α : Type u) where
  words : Words α
  put : Option (PutPc α)
  get : Option (GetPc α)
  pushed : List α
  popped : List α

/-- What stands between read and write. -/
def State.standing (N : Nat) (s : State α) : List α :=
  contents N s.words.buffer s.words.read s.words.write

inductive Step (N : Nat) : State α → State α → Prop where
  | putStart (s : State α) (data : List α) (idle : s.put = none) :
      Step N s { s with put := some (.loadWrite data) }
  | putStep (s : State α) (pc : PutPc α) (at_pc : s.put = some pc) :
      Step N s { s with
        words := (pc.step N s.words).1
        put := (pc.step N s.words).2.elim some (fun _ => none)
        pushed := s.pushed ++ pc.published }
  | getStart (s : State α) (num : Nat) (idle : s.get = none) :
      Step N s { s with get := some (.loadRead num) }
  | getStep (s : State α) (pc : GetPc α) (at_pc : s.get = some pc) :
      Step N s { s with
        words := (pc.step N s.words).1
        get := (pc.step N s.words).2.elim some (fun _ => none)
        popped := s.popped ++ pc.taken }

/-- `i` elements of `data` stand, not yet visible, in the slots after the write
position, and the producer knows there was room for them. -/
structure Pending (N : Nat) (f : Words α) (data : List α) (i write : Nat) : Prop where
  room : dist N f.read f.write + i < N
  position : write = slot N f.write i
  stored : data.take i = (List.range i).map fun j => f.buffer (slot N f.write j)

/-- The read position a put has loaded may be stale, but the free slots it sees
are still free. -/
def PutPc.Ok (N : Nat) (f : Words α) : PutPc α → Prop
  | .loadWrite _ => True
  | .loadRead _ write => write = f.write
  | .store data i write read =>
    Pending N f data i write ∧ read < N ∧ dist N read f.write + i < N ∧
      dist N f.read f.write ≤ dist N read f.write
  | .publish data i write => Pending N f data i write

/-- `got` is what the first slots after the read position hold. -/
structure Fetched (N : Nat) (f : Words α) (read : Nat) (got : List α) : Prop where
  position : read = slot N f.read got.length
  fetched : got = (List.range got.length).map fun j => f.buffer (slot N f.read j)

def GetPc.Ok (N : Nat) (f : Words α) : GetPc α → Prop
  | .loadRead _ => True
  | .loadWrite _ read => read = f.read
  | .load _ read write got =>
    Fetched N f read got ∧ write < N ∧ got.length ≤ dist N f.read write ∧
      dist N f.read write ≤ dist N f.read f.write
  | .publish read got => Fetched N f read got ∧ got.length ≤ dist N f.read f.write

structure Inv (N : Nat) (s : State α) : Prop where
  write_lt : s.words.write < N
  read_lt : s.words.read < N
  put_ok : ∀ pc, s.put = some pc → pc.Ok N s.words
  get_ok : ∀ pc, s.get = some pc → pc.Ok N s.words
  history : s.pushed = s.popped ++ s.standing N

section
variable {N : Nat} {f : Words α}

/-- The three things an access of a put can do to the shared words. -/
theorem PutPc.step_effect (N : Nat) (f : Words α) (pc : PutPc α) :
    ((pc.step N f).1 = f ∧ pc.published = []) ∨
    (∃ data i write read x, pc = .store data i write read ∧ data[i]? = some x ∧
      next N write ≠ read ∧
      (pc.step N f).1 = { f with buffer := Function.update f.buffer write x }) ∨
    (∃ data i write, pc = .publish data i write ∧ (pc.step N f).1 = { f with write := write }) := by
  cases pc with
  | loadWrite data => exact Or.inl ⟨rfl, rfl⟩
  | loadRead data write => exact Or.inl ⟨rfl, rfl⟩
  | store data i write read =>
    simp only [PutPc.step]
    cases hx : data[i]? with
    | none => exact Or.inl ⟨rfl, rfl⟩
    | some x =>
      by_cases full : next N write = read
      · exact Or.inl ⟨by simp [full], rfl⟩
      · exact Or.inr (Or.inl ⟨data, i, write, read, x, rfl, hx, full, by simp [full]⟩)
  | publish data i write => exact Or.inr (Or.inr ⟨data, i, write, rfl, rfl⟩)

theorem GetPc.step_effect (N : Nat) (f : Words α) (pc : GetPc α) :
    ((pc.step N f).1 = f ∧ pc.taken = []) ∨
    (∃ read got, pc = .publish read got ∧ (pc.step N f).1 = { f with read := read }) := by
  cases pc with
  | loadRead num => exact Or.inl ⟨rfl, rfl⟩
  | loadWrite num read => exact Or.inl ⟨rfl, rfl⟩
  | load num read write got =>
    simp only [GetPc.step]
    split <;> exact Or.inl ⟨rfl, rfl⟩
  | publish read got => exact Or.inr ⟨read, got, rfl, rfl⟩

/-- A producer that sees a free slot after its pending ones may use it. -/
theorem room_for_next {i write read : Nat} (hw : f.write < N) (hr : read < N)
    (position : write = slot N f.write i) (seen : dist N read f.write + i < N)
    (free : next N write ≠ read) : dist N read f.write + (i + 1) < N := by
  have hwrite : write < N := position ▸ slot_lt hw (by omega)
  have hd : dist N read write = dist N read f.write + i := by
    rw [position, dist_advance_write hr hw seen]
  have := (next_eq_iff_full hr hwrite).not.mp free
  omega

theorem Pending.store {data : List α} {i write read : Nat} {x : α} (hw : f.write < N)
    (hr : read < N) (pending : Pending N f data i write) (hx : data[i]? = some x)
    (seen : dist N read f.write + i < N) (older : dist N f.read f.write ≤ dist N read f.write)
    (free : next N write ≠ read) :
    Pending N { f with buffer := Function.update f.buffer write x } data (i + 1)
      (next N write) := by
  have room := room_for_next hw hr pending.position seen free
  refine ⟨by simp only; omega, ?_, ?_⟩
  · rw [next_eq_slot (pending.position ▸ slot_lt hw (by omega)), pending.position,
      slot_slot hw (by omega)]
  · -- the new element goes behind the ones stored before it
    have older_kept : ((List.range i).map fun j =>
        Function.update f.buffer write x (slot N f.write j)) =
        (List.range i).map fun j => f.buffer (slot N f.write j) := by
      apply List.map_congr_left
      intro j hj
      apply Function.update_of_ne
      rw [pending.position]
      intro h
      have := slot_inj (by have := List.mem_range.mp hj; omega) (by omega) h
      have := List.mem_range.mp hj
      omega
    rw [List.take_add_one, hx, pending.stored, List.range_succ, List.map_append, older_kept]
    simp [← pending.position]

theorem PutPc.Ok.step {pc : PutPc α} (hw : f.write < N) (hr : f.read < N) (ok : pc.Ok N f)
    {pc' : PutPc α} (h : (pc.step N f).2 = .inl pc') : pc'.Ok N (pc.step N f).1 := by
  cases pc with
  | loadWrite data =>
    cases h
    exact rfl
  | loadRead data write =>
    simp only [PutPc.step] at h ⊢
    cases h
    have hd := dist_lt hr hw
    obtain rfl : write = f.write := ok
    exact ⟨⟨by omega, (slot_zero hw).symm, by simp⟩, hr, by omega, Nat.le_refl _⟩
  | store data i write read =>
    obtain ⟨pending, hread, seen, older⟩ := ok
    simp only [PutPc.step] at h ⊢
    cases hx : data[i]? with
    | none =>
      rw [hx] at h
      cases h
      exact pending
    | some x =>
      by_cases full : next N write = read
      · simp only [hx, full, if_true] at h ⊢
        cases h
        exact pending
      · simp only [hx, full, if_false] at h ⊢
        cases h
        exact ⟨pending.store hw hread hx seen older full, hread,
          room_for_next hw hread pending.position seen full, older⟩
  | publish data i write => cases h

/-- Reading the next slot that stands extends what has been fetched. -/
theorem Fetched.load {read write : Nat} {got : List α} (hr : f.read < N) (hw : write < N)
    (fetched : Fetched N f read got) (some : read ≠ write)
    (upto : got.length ≤ dist N f.read write) :
    Fetched N f (next N read) (got ++ [f.buffer read]) ∧
      (got ++ [f.buffer read]).length ≤ dist N f.read write := by
  have hd := dist_lt hr hw
  have more : got.length < dist N f.read write := by
    refine Nat.lt_of_le_of_ne upto fun h => some ?_
    rw [fetched.position, h, slot_dist hr hw]
  have hread : read < N := fetched.position ▸ slot_lt hr (by omega)
  refine ⟨⟨?_, ?_⟩, by
    rw [List.length_append, List.length_singleton]
    exact more⟩
  · rw [next_eq_slot hread, List.length_append, List.length_singleton]
    conv_lhs => rw [fetched.position, slot_slot hr (by omega)]
  · rw [List.length_append, List.length_singleton, List.range_succ, List.map_append,
      ← fetched.fetched]
    simp [← fetched.position]

theorem GetPc.Ok.step {pc : GetPc α} (hw : f.write < N) (hr : f.read < N) (ok : pc.Ok N f)
    {pc' : GetPc α} (h : (pc.step N f).2 = .inl pc') : pc'.Ok N (pc.step N f).1 := by
  cases pc with
  | loadRead num =>
    cases h
    exact rfl
  | loadWrite num read =>
    simp only [GetPc.step] at h ⊢
    cases h
    obtain rfl : read = f.read := ok
    exact ⟨⟨(slot_zero hr).symm, rfl⟩, hw, Nat.zero_le _, Nat.le_refl _⟩
  | load num read write got =>
    obtain ⟨fetched, hwrite, upto, older⟩ := ok
    simp only [GetPc.step] at h ⊢
    by_cases stop : got.length = num ∨ read = write
    · simp only [stop, if_true] at h ⊢
      cases h
      exact ⟨fetched, by omega⟩
    · simp only [stop, if_false] at h ⊢
      cases h
      have next := fetched.load hr hwrite (fun he => stop (Or.inr he)) upto
      exact ⟨next.1, hwrite, next.2, older⟩
  | publish read got => cases h

/-- A slot the producer is filling is none of those the consumer has read. -/
theorem Fetched.update_free {data : List α} {i write read : Nat} {got : List α} (x : α)
    (hw : f.write < N) (hr : f.read < N) (pending : Pending N f data i write)
    (upto : got.length ≤ dist N f.read f.write) (fetched : Fetched N f read got) :
    Fetched N { f with buffer := Function.update f.buffer write x } read got := by
  refine ⟨fetched.position, ?_⟩
  conv_lhs => rw [fetched.fetched]
  apply List.map_congr_left
  intro j hj
  have hj := List.mem_range.mp hj
  symm
  apply Function.update_of_ne
  rw [pending.position, slot_write hr hw pending.room]
  intro h
  have := dist_lt hr hw
  have := slot_inj (by omega) pending.room h
  omega

theorem GetPc.Ok.of_putStep {put : PutPc α} {get : GetPc α} (hw : f.write < N)
    (hr : f.read < N) (put_ok : put.Ok N f) (ok : get.Ok N f) : get.Ok N (put.step N f).1 := by
  rcases put.step_effect N f with ⟨same, _⟩ | ⟨data, i, write, read, x, rfl, _, _, eff⟩ |
    ⟨data, i, write, rfl, eff⟩
  · rwa [same]
  · -- a store touches only a slot that is still free
    obtain ⟨pending, _⟩ := put_ok
    rw [eff]
    cases get with
    | loadRead num => trivial
    | loadWrite num read => exact ok
    | load num read write got =>
      obtain ⟨fetched, hwrite, upto, older⟩ := ok
      exact ⟨fetched.update_free x hw hr pending (by omega), hwrite, upto, older⟩
    | publish read got => exact ⟨ok.1.update_free x hw hr pending ok.2, ok.2⟩
  · -- publishing only lets the consumer see more
    have grows : dist N f.read f.write ≤ dist N f.read write := by
      rw [put_ok.position, dist_advance_write hr hw put_ok.room]
      omega
    rw [eff]
    cases get with
    | loadRead num => trivial
    | loadWrite num read => exact ok
    | load num read write got =>
      obtain ⟨fetched, hwrite, upto, older⟩ := ok
      exact ⟨⟨fetched.position, fetched.fetched⟩, hwrite, upto, Nat.le_trans older grows⟩
    | publish read got =>
      exact ⟨⟨ok.1.position, ok.1.fetched⟩, Nat.le_trans ok.2 grows⟩

theorem PutPc.Ok.of_getStep {put : PutPc α} {get : GetPc α} (hw : f.write < N)
    (hr : f.read < N) (get_ok : get.Ok N f) (ok : put.Ok N f) : put.Ok N (get.step N f).1 := by
  rcases get.step_effect N f with ⟨same, _⟩ | ⟨read, got, rfl, eff⟩
  · rwa [same]
  · -- slots that the consumer releases are free for the producer as well
    have shrinks : dist N read f.write ≤ dist N f.read f.write := by
      have := dist_advance_read hw get_ok.2 hr
      rw [← get_ok.1.position] at this
      omega
    rw [eff]
    cases put with
    | loadWrite data => trivial
    | loadRead data write => exact ok
    | store data i write read' =>
      obtain ⟨⟨room, position, stored⟩, hread, seen, older⟩ := ok
      have room' : dist N read f.write + i < N := by omega
      exact ⟨⟨room', position, stored⟩, hread, seen, Nat.le_trans shrinks older⟩
    | publish data i write =>
      obtain ⟨room, position, stored⟩ := ok
      have room' : dist N read f.write + i < N := by omega
      exact ⟨room', position, stored⟩

/-- Only the publishing store changes what stands, and it appends the stored elements. -/
theorem standing_putStep {put : PutPc α} (hw : f.write < N) (hr : f.read < N)
    (ok : put.Ok N f) :
    contents N (put.step N f).1.buffer (put.step N f).1.read (put.step N f).1.write =
      contents N f.buffer f.read f.write ++ put.published := by
  rcases put.step_effect N f with ⟨same, none⟩ | ⟨data, i, write, read, x, rfl, _, _, eff⟩ |
    ⟨data, i, write, rfl, eff⟩
  · rw [same, none, List.append_nil]
  · obtain ⟨pending, _⟩ := ok
    rw [eff, pending.position]
    simpa [PutPc.published] using contents_update_free f.buffer x hr hw pending.room
  · rw [eff, ok.position, contents_advance_write f.buffer hr hw ok.room, ← ok.stored]
    rfl

theorem standing_getStep {get : GetPc α} (hw : f.write < N) (hr : f.read < N)
    (ok : get.Ok N f) :
    contents N f.buffer f.read f.write = get.taken ++
      contents N (get.step N f).1.buffer (get.step N f).1.read (get.step N f).1.write := by
  rcases get.step_effect N f with ⟨same, none⟩ | ⟨read, got, rfl, eff⟩
  · rw [same, none, List.nil_append]
  · rw [eff, contents_advance_read f.buffer hr hw ok.2, ← ok.1.fetched, ← ok.1.position]
    rfl

theorem PutPc.Ok.write_lt {put : PutPc α} (hw : f.write < N) (ok : put.Ok N f) :
    (put.step N f).1.write < N := by
  rcases put.step_effect N f with ⟨same, _⟩ | ⟨data, i, write, read, x, rfl, _, _, eff⟩ |
    ⟨data, i, write, rfl, eff⟩
  · rwa [same]
  · rwa [eff]
  · rw [eff, ok.position]
    exact slot_lt hw (by have := ok.room; omega)

theorem PutPc.step_read (put : PutPc α) : (put.step N f).1.read = f.read := by
  rcases put.step_effect N f with ⟨same, _⟩ | ⟨data, i, write, read, x, rfl, _, _, eff⟩ |
    ⟨data, i, write, rfl, eff⟩
  · rw [same]
  · rw [eff]
  · rw [eff]

theorem GetPc.Ok.read_lt {get : GetPc α} (hw : f.write < N) (hr : f.read < N)
    (ok : get.Ok N f) : (get.step N f).1.read < N := by
  rcases get.step_effect N f with ⟨same, _⟩ | ⟨read, got, rfl, eff⟩
  · rwa [same]
  · rw [eff, ok.1.position]
    have := dist_lt hr hw
    exact slot_lt hr (by have := ok.2; omega)

theorem GetPc.step_write (get : GetPc α) : (get.step N f).1.write = f.write := by
  rcases get.step_effect N f with ⟨same, _⟩ | ⟨read, got, rfl, eff⟩
  · rw [same]
  · rw [eff]

end

theorem Inv.step {N : Nat} {s t : State α} (inv : Inv N s) (h : Step N s t) : Inv N t := by
  obtain ⟨hw, hr, put_ok, get_ok, history⟩ := inv
  cases h with
  | putStart data idle =>
    refine ⟨hw, hr, ?_, get_ok, history⟩
    intro pc h
    cases h
    trivial
  | putStep pc at_pc =>
    have ok := put_ok pc at_pc
    refine ⟨ok.write_lt hw, by rwa [pc.step_read], ?_, ?_, ?_⟩
    · intro pc' h
      cases hs : (pc.step N s.words).2 with
      | inl next =>
        simp only [hs, Sum.elim_inl, Option.some.injEq] at h
        exact h ▸ ok.step hw hr hs
      | inr n => simp [hs] at h
    · exact fun get h => (get_ok get h).of_putStep hw hr ok
    · simp only [State.standing, standing_putStep hw hr ok, history, List.append_assoc]
  | getStart num idle =>
    refine ⟨hw, hr, put_ok, ?_, history⟩
    intro pc h
    cases h
    trivial
  | getStep pc at_pc =>
    have ok := get_ok pc at_pc
    refine ⟨by rwa [pc.step_write], ok.read_lt hw hr, ?_, ?_, ?_⟩
    · exact fun put h => (put_ok put h).of_getStep hw hr ok
    · intro pc' h
      cases hs : (pc.step N s.words).2 with
      | inl next =>
        simp only [hs, Sum.elim_inl, Option.some.injEq] at h
        exact h ▸ ok.step hw hr hs
      | inr got => simp [hs] at h
    · rw [history, List.append_assoc]
      simp only [State.standing]
      rw [standing_getStep hw hr ok]

/-- A ring at rest, with whatever stands in it counted as pushed. -/
structure Start (N : Nat) (s : State α) : Prop where
  write_lt : s.words.write < N
  read_lt : s.words.read < N
  put : s.put = none
  get : s.get = none
  pushed : s.pushed = s.standing N
  popped : s.popped = []

def ring (α : Type u) (N : Nat) : System (State α) where
  Init := Start N
  Step := Step N

/-- What was pushed is what was popped followed by what still stands, in every
interleaving of the accesses of the two parties. -/
theorem reachable_inv {N : Nat} {s : State α} (h : (ring α N).Reachable s) : Inv N s := by
  refine h.invariant (I := Inv N) ?_ (fun s t inv step => inv.step step)
  intro s start
  exact ⟨start.write_lt, start.read_lt, by simp [start.put], by simp [start.get],
    by rw [start.pushed, start.popped]; rfl⟩

/-! ## Ends held by parties of a larger system -/

/-- The words of a ring and what went through it, without the calls in progress. -/
structure Queue (α : Type u) where
  words : Words α
  pushed : List α
  popped : List α

/-- One access of a put; what it publishes is pushed. -/
def Queue.put (N : Nat) (q : Queue α) (pc : PutPc α) : Queue α :=
  { q with words := (pc.step N q.words).1, pushed := q.pushed ++ pc.published }

def Queue.get (N : Nat) (q : Queue α) (pc : GetPc α) : Queue α :=
  { q with words := (pc.step N q.words).1, popped := q.popped ++ pc.taken }

def Queue.standing (N : Nat) (q : Queue α) : List α :=
  contents N q.words.buffer q.words.read q.words.write

/-- The ring with the calls its two parties have in progress. -/
def Queue.between (q : Queue α) (put : Option (PutPc α)) (get : Option (GetPc α)) : State α :=
  ⟨q.words, put, get, q.pushed, q.popped⟩

/-- What a step of the producing party may do to the ring. -/
inductive Produces (N : Nat) :
    Queue α → Option (PutPc α) → Queue α → Option (PutPc α) → Prop where
  | idle (q : Queue α) (put : Option (PutPc α)) : Produces N q put q put
  | start (q : Queue α) (data : List α) : Produces N q none q (some (.loadWrite data))
  | access (q : Queue α) (pc : PutPc α) :
      Produces N q (some pc) (q.put N pc) ((pc.step N q.words).2.elim some fun _ => none)

inductive Consumes (N : Nat) :
    Queue α → Option (GetPc α) → Queue α → Option (GetPc α) → Prop where
  | idle (q : Queue α) (get : Option (GetPc α)) : Consumes N q get q get
  | start (q : Queue α) (num : Nat) : Consumes N q none q (some (.loadRead num))
  | access (q : Queue α) (pc : GetPc α) :
      Consumes N q (some pc) (q.get N pc) ((pc.step N q.words).2.elim some fun _ => none)

theorem Produces.step {N : Nat} {q q' : Queue α} {put put' : Option (PutPc α)}
    (h : Produces N q put q' put') (get : Option (GetPc α)) :
    q'.between put' get = q.between put get ∨
      Step N (q.between put get) (q'.between put' get) := by
  cases h with
  | idle => exact Or.inl rfl
  | start data => exact Or.inr (.putStart (q.between none get) data rfl)
  | access pc => exact Or.inr (.putStep (q.between (some pc) get) pc rfl)

theorem Inv.produces {N : Nat} {q q' : Queue α} {put put' : Option (PutPc α)}
    {get : Option (GetPc α)} (inv : Inv N (q.between put get)) (h : Produces N q put q' put') :
    Inv N (q'.between put' get) := by
  rcases h.step get with same | step
  · exact same ▸ inv
  · exact inv.step step

theorem Consumes.step {N : Nat} {q q' : Queue α} {get get' : Option (GetPc α)}
    (h : Consumes N q get q' get') (put : Option (PutPc α)) :
    q'.between put get' = q.between put get ∨
      Step N (q.between put get) (q'.between put get') := by
  cases h with
  | idle => exact Or.inl rfl
  | start num => exact Or.inr (.getStart (q.between put none) num rfl)
  | access pc => exact Or.inr (.getStep (q.between put (some pc)) pc rfl)

theorem Inv.consumes {N : Nat} {q q' : Queue α} {put : Option (PutPc α)}
    {get get' : Option (GetPc α)} (inv : Inv N (q.between put get))
    (h : Consumes N q get q' get') : Inv N (q'.between put get') := by
  rcases h.step put with same | step
  · exact same ▸ inv
  · exact inv.step step

/-- With nothing but loads before it, a call that returns has published its last word. -/
theorem PutPc.returns {N n : Nat} {f : Words α} {pc : PutPc α} (h : (pc.step N f).2 = .inr n) :
    ∃ data write, pc = .publish data n write := by
  cases pc with
  | loadWrite data => cases h
  | loadRead data write => cases h
  | store data i write read =>
    simp only [PutPc.step] at h
    split at h
    · cases h
    · split at h <;> cases h
  | publish data i write =>
    cases h
    exact ⟨data, write, rfl⟩

/-- The number a put reports is at most that of the elements it was given. -/
theorem Pending.count_le {N i write : Nat} {f : Words α} {data : List α}
    (h : Pending N f data i write) : i ≤ data.length := by
  have hlen := congrArg List.length h.stored
  rw [List.length_take, List.length_map, List.length_range] at hlen
  omega

def PutPc.data : PutPc α → List α
  | .loadWrite data => data
  | .loadRead data _ => data
  | .store data _ _ _ => data
  | .publish data _ _ => data

theorem PutPc.step_data {N : Nat} {f : Words α} {pc pc' : PutPc α}
    (h : (pc.step N f).2 = .inl pc') : pc'.data = pc.data := by
  cases pc with
  | loadWrite data =>
    cases h
    rfl
  | loadRead data write =>
    cases h
    rfl
  | store data i write read =>
    simp only [PutPc.step] at h
    split at h
    · cases h
      rfl
    · split at h <;> (cases h; rfl)
  | publish data i write => cases h

/-- Before its last access a put publishes nothing. -/
theorem PutPc.published_of_continues {N : Nat} {f : Words α} {pc pc' : PutPc α}
    (h : (pc.step N f).2 = .inl pc') : pc.published = [] := by
  cases pc with
  | publish data i write => cases h
  | _ => rfl

/-- What was pushed is what was popped and what stands. -/
theorem Inv.pushed_eq {N : Nat} {q : Queue α} {put : Option (PutPc α)} {get : Option (GetPc α)}
    (inv : Inv N (q.between put get)) : q.pushed = q.popped ++ q.standing N :=
  inv.history

end SpscRing
