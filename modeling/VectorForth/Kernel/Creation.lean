import VectorForth.Kernel.Suspended

/-!
# New tasks

What `scheduler_init` and `task_create` do: the record and the stack come out of
the bytes that the heap kept for itself, so they overlap nothing that a task
needs, and the words on the new stack are a frame for `switch_context`.
-/

namespace VectorForth.Context

open ByteMemory LabelledRun RoundRobin
open CallStack hiding Word
open Heap (Word Stop Managed payloadSize Sound walkFuel)
open Forth (TaskState)
open Scheduler (Linked Ring)

/-! ## The frame built by hand -/

/-- One `*(--stack) = v` after the other. -/
def stackPutAll (mem : Mem) (stack : Word) : List Word → Mem × Word
  | [] => (mem, stack)
  | v :: vs => stackPutAll (stackPut mem stack v).1 (stackPut mem stack v).2 vs

/-- The processor of a task that has not run yet: `entry`, with interrupts
enabled and the address of `task_exit` on top of its stack. -/
def firstCpu (entry base : Word) : Cpu Reg where
  reg := fun _ => 0#64
  sp := base + 8184#64
  ip := entry
  flags := Flags.load 0x202#64

theorem firstCpu_flags (entry base : Word) : (firstCpu entry base).flags.word = 0x202#64 := by
  show (0x202#64 &&& flagBits) ||| 2#64 = 0x202#64
  decide

section Frame

variable {mem : Mem} {stack v : Word} {ws vs : List Word}

theorem stackPut_framed (h : Framed mem stack.toNat ws) (hroom : 8 ≤ stack.toNat) :
    (stackPut mem stack v).2.toNat = stack.toNat - 8 ∧
      Framed (stackPut mem stack v).1 (stack.toNat - 8) (v :: ws) ∧
      ∀ x, x < stack.toNat - 8 ∨ stack.toNat ≤ x → (stackPut mem stack v).1 x = mem x :=
  pushWord_framed (c := (⟨fun _ => 0#64, stack, 0#64, Flags.load 0#64⟩ : Cpu Reg)) h hroom

theorem stackPutAll_framed (vs : List Word) (h : Framed mem stack.toNat ws)
    (hroom : 8 * vs.length ≤ stack.toNat) :
    (stackPutAll mem stack vs).2 = stack - BitVec.ofNat 64 (8 * vs.length) ∧
      Framed (stackPutAll mem stack vs).1 (stack.toNat - 8 * vs.length) (vs.reverse ++ ws) ∧
      ∀ x, x < stack.toNat - 8 * vs.length ∨ stack.toNat ≤ x →
        (stackPutAll mem stack vs).1 x = mem x := by
  induction vs generalizing mem stack ws with
  | nil =>
      refine ⟨?_, h, fun _ _ => rfl⟩
      rw [List.length_nil, Nat.mul_zero, BitVec.sub_zero]
      rfl
  | cons v vs ih =>
      rw [List.length_cons] at hroom
      obtain ⟨hsp, hframe, hkept⟩ := stackPut_framed (v := v) h (by omega)
      rw [← hsp] at hframe
      obtain ⟨hsp', hframe', hkept'⟩ := ih hframe (by omega)
      rw [stackPutAll, List.length_cons, List.reverse_cons, List.append_assoc]
      refine ⟨?_, ?_, fun x hx => ?_⟩
      · rw [hsp', Nat.mul_succ, BitVec.ofNat_add]
        show stack - 8#64 - _ = _
        rw [BitVec.sub_sub, BitVec.add_comm]
      · rw [hsp] at hframe'
        rw [Nat.mul_succ, Nat.add_comm, ← Nat.sub_sub]
        exact hframe'
      · rw [hkept' x (by omega), hkept x (by omega)]

theorem buildFrame_eq (taskExit entry : Word) (mem : Mem) (stack : Word) :
    buildFrame taskExit entry mem stack = stackPutAll mem stack
      [taskExit, entry, 0x202#64, 0#64, 0#64, 0#64, 0#64, 0#64, 0#64] := rfl

/-- **The frame of `task_create` is one of `switch_context`.** -/
theorem buildFrame_spec {base : Word} (taskExit entry : Word) (mem : Mem)
    (hend : base.toNat + 8192 < 2 ^ 64) :
    (buildFrame taskExit entry mem (base + taskStackSize)).2 = base + 8120#64 ∧
      Framed (buildFrame taskExit entry mem (base + taskStackSize)).1 (base.toNat + 8120)
        (frame calleeSaved (firstCpu entry base).reg (firstCpu entry base).flags.word entry ++
          [taskExit]) ∧
      ∀ x, x < base.toNat + 8120 ∨ base.toNat + 8192 ≤ x →
        (buildFrame taskExit entry mem (base + taskStackSize)).1 x = mem x := by
  have hstack : (base + taskStackSize).toNat = base.toNat + 8192 := by
    rw [taskStackSize, BitVec.toNat_add, BitVec.toNat_ofNat]
    omega
  have hempty : Framed mem (base + taskStackSize).toNat [] := trivial
  obtain ⟨hsp, hframe, hkept⟩ := stackPutAll_framed
    [taskExit, entry, 0x202#64, 0#64, 0#64, 0#64, 0#64, 0#64, 0#64] hempty
    (by simp only [List.length_cons, List.length_nil]; omega)
  have haddr : base.toNat + 8192 - 72 = base.toNat + 8120 := by omega
  rw [hstack] at hframe hkept
  change Framed _ (base.toNat + 8192 - 72) _ at hframe
  change ∀ x, x < base.toNat + 8192 - 72 ∨ _ → _ at hkept
  rw [haddr] at hframe hkept
  rw [firstCpu_flags, buildFrame_eq]
  refine ⟨?_, hframe, hkept⟩
  refine hsp.trans ?_
  have hdiff : 8192#64 - BitVec.ofNat 64 (8 * 9) = 8120#64 := by decide
  rw [taskStackSize, add_sub_assoc]
  exact congrArg (base + ·) hdiff

end Frame

/-! ## `task_create` -/

/-- The last task on the list. -/
def lastPtr (ts : List Word) : Word := ptr ts (ts.length - 1)

/-- A record that is the same up to its link. -/
structure SameRecord (mem mem' : Mem) (t : Word) : Prop where
  rsp : rsp mem' t = rsp mem t
  stackBase : stackBase mem' t = stackBase mem t
  pid : pid mem' t = pid mem t
  state : state mem' t = state mem t

/-- What a call that found memory has done. -/
structure Created (taskExit : Word) (m : Machine) (ts : List Word) (entry : Word)
    (heap : Heap.State) (t base : Word) (m' : Machine) : Prop where
  blocks : ∀ bs, Heap.Blocks heap bs → Heap.Blocks m'.heap bs
  sound : Sound m'.heap (base :: t :: live m.mem ts)
  sizes : ∀ p ∈ live m.mem ts, payloadSize m'.heap p = payloadSize m.heap p
  record : 32 ≤ payloadSize m'.heap t
  stack : 8192 ≤ payloadSize m'.heap base
  fresh : ∀ x, InRecord t x ∨ (base.toNat ≤ x ∧ x < base.toNat + 8192) →
    Managed m.heap (live m.mem ts) x
  kept : ∀ x, ¬ Managed m.heap (live m.mem ts) x →
    (x < (lastPtr ts).toNat + 24 ∨ (lastPtr ts).toNat + 32 ≤ x) → m'.mem x = m.mem x
  rsp : rsp m'.mem t = base + 8120#64
  stackBase : stackBase m'.mem t = base
  pid : pid m'.mem t = m.nextPid
  state : state m'.mem t = taskReady
  next : next m'.mem t = m.taskList
  last : Context.next m'.mem (lastPtr ts) = t
  framed : Framed m'.mem (base.toNat + 8120)
    (frame calleeSaved (firstCpu entry base).reg (firstCpu entry base).flags.word entry ++
      [taskExit])
  rest : m' = { m with heap := m'.heap, nextPid := m.nextPid + 1#32 }

section Create

variable {taskExit entry t base : Word} {m m' : Machine} {ts : List Word} {s : Scheduler.State}
  {c : Nat} {heap heap₁ heap₂ : Heap.State} {e : Stop}

theorem taskCreate_ok (hk₁ : Heap.kmalloc m.heap taskSize = .ok (heap₁, t))
    (hk₂ : Heap.kmalloc { heap₁ with mem := setPid heap₁.mem t m.nextPid } taskStackSize =
      .ok (heap₂, base)) :
    taskCreate taskExit m entry = setUp taskExit m entry heap₂ t base := by
  simp only [taskCreate, hk₁, hk₂, bind, Except.bind]

/-- There is no other way for it to return, or to stop. -/
theorem taskCreate_cases (taskExit : Word) (m : Machine) (entry : Word) :
    (∃ e, Heap.kmalloc m.heap taskSize = .error e ∧ taskCreate taskExit m entry = .error e) ∨
    (∃ heap₁ t e, Heap.kmalloc m.heap taskSize = .ok (heap₁, t) ∧
      Heap.kmalloc { heap₁ with mem := setPid heap₁.mem t m.nextPid } taskStackSize = .error e ∧
      taskCreate taskExit m entry = .error e) ∨
    ∃ heap₁ t heap₂ base, Heap.kmalloc m.heap taskSize = .ok (heap₁, t) ∧
      Heap.kmalloc { heap₁ with mem := setPid heap₁.mem t m.nextPid } taskStackSize =
        .ok (heap₂, base) := by
  cases hk₁ : Heap.kmalloc m.heap taskSize with
  | error e =>
      refine Or.inl ⟨e, rfl, ?_⟩
      simp only [taskCreate, hk₁, bind, Except.bind]
  | ok r =>
      obtain ⟨heap₁, t⟩ := r
      cases hk₂ : Heap.kmalloc { heap₁ with mem := setPid heap₁.mem t m.nextPid } taskStackSize with
      | error e =>
          refine Or.inr (Or.inl ⟨heap₁, t, e, rfl, hk₂, ?_⟩)
          simp only [taskCreate, hk₁, hk₂, bind, Except.bind]
      | ok r =>
          obtain ⟨heap₂, base⟩ := r
          exact Or.inr (Or.inr ⟨heap₁, t, heap₂, base, rfl, hk₂⟩)

/-- The loops go over fewer records than the heap has room for. -/
theorem Kept.length_lt (h : Kept m ts s c) : ts.length < walkFuel := by
  obtain ⟨bs, hblocks, hlive⟩ := h.sound
  have hlen := hlive.length_eq
  rw [List.length_map, List.length_map, live, List.length_append] at hlen
  have hused := BlockList.length_payloads_le Heap.headerSize Heap.heapVirtStart.toNat bs
  have hlt := hblocks.length_lt
  unfold Heap.inUse at hlen
  omega

/-- The two allocations: a record and a stack, out of the heap's own bytes. -/
structure Allocated (m : Machine) (ts : List Word) (t base : Word) (heap : Heap.State) : Prop where
  sound : Sound heap (base :: t :: live m.mem ts)
  sizes : ∀ p ∈ live m.mem ts, payloadSize heap p = payloadSize m.heap p
  record : 32 ≤ payloadSize heap t
  stack : 8192 ≤ payloadSize heap base
  fresh : ∀ x, InRecord t x ∨ (base.toNat ≤ x ∧ x < base.toNat + 8192) →
    Managed m.heap (live m.mem ts) x
  kept : ∀ x, ¬ Managed m.heap (live m.mem ts) x → heap.mem x = m.mem x
  pid : Context.pid heap.mem t = m.nextPid

/-- The first store into a new record. -/
theorem setPid_managed {v : BitVec 32} {others : List Word} (hs : Sound heap (t :: others))
    (hlarge : 32 ≤ payloadSize heap t) :
    ∀ x, Managed heap (t :: others) x → setPid heap.mem t v x = heap.mem x := by
  intro x hx
  have hstart := Heap.heapVirtStart_toNat
  have hbound := (hs.bounds (List.mem_cons_self ..)).2
  have hout := hx.2.2 t (List.mem_cons_self ..)
  exact setPid_outside (by unfold Fits; omega) (by omega)

theorem Kept.allocated (h : Kept m ts s c)
    (hk₁ : Heap.kmalloc m.heap taskSize = .ok (heap₁, t))
    (hk₂ : Heap.kmalloc { heap₁ with mem := setPid heap₁.mem t m.nextPid } taskStackSize =
      .ok (heap₂, base)) : Allocated m ts t base heap₂ := by
  have hstart := Heap.heapVirtStart_toNat
  have hmalloc₁ := h.sound.malloc (by decide) (by decide) hk₁
  obtain ⟨hkept₁, hfresh₁⟩ := h.sound.malloc_managed (by decide) hk₁
  have hlarge₁ : 32 ≤ payloadSize heap₁ t := hmalloc₁.large
  have hbounds₁ := (hmalloc₁.sound.bounds (List.mem_cons_self ..)).2
  have hfit : Fits t := by
    unfold Fits
    omega
  have hpid : ∀ x, (x < t.toNat ∨ t.toNat + payloadSize heap₁ t ≤ x) →
      setPid heap₁.mem t m.nextPid x = heap₁.mem x := fun x hx => setPid_outside hfit (by omega)
  obtain ⟨hsound₁, hsizes₁⟩ := hmalloc₁.sound.keep (m := setPid heap₁.mem t m.nextPid)
    (setPid_managed hmalloc₁.sound hlarge₁)
  have hsize : ∀ p ∈ live m.mem ts,
      payloadSize { heap₁ with mem := setPid heap₁.mem t m.nextPid } p = payloadSize m.heap p :=
    fun p hp => (hsizes₁ p (List.mem_cons_of_mem _ hp)).trans (hmalloc₁.undisturbed p hp).1
  have hmalloc₂ := hsound₁.malloc (by decide) (by decide) hk₂
  obtain ⟨hkept₂, hfresh₂⟩ := hsound₁.malloc_managed (by decide) hk₂
  have hlarge₂ : 8192 ≤ payloadSize heap₂ base := hmalloc₂.large
  have hmanaged : ∀ x, Managed { heap₁ with mem := setPid heap₁.mem t m.nextPid }
      (t :: live m.mem ts) x → Managed m.heap (live m.mem ts) x := by
    rintro x ⟨hlow, hhigh, hout⟩
    exact ⟨hlow, hhigh, fun p hp => by
      rw [← hsize p hp]
      exact hout p (List.mem_cons_of_mem _ hp)⟩
  have hsizeT := (hmalloc₂.undisturbed t (List.mem_cons_self ..)).1
  rw [hsizes₁ t (List.mem_cons_self ..)] at hsizeT
  constructor
  case sound => exact hmalloc₂.sound
  case sizes =>
    exact fun p hp => (hmalloc₂.undisturbed p (List.mem_cons_of_mem _ hp)).1.trans (hsize p hp)
  case record => omega
  case stack => exact hlarge₂
  case fresh =>
    rintro x (⟨hlow, hhigh⟩ | ⟨hlow, hhigh⟩)
    · exact hfresh₁ x hlow (by omega)
    · exact hmanaged x (hfresh₂ x hlow (by omega))
  case kept =>
    intro x hx
    have hout : x < t.toNat ∨ t.toNat + payloadSize heap₁ t ≤ x := by
      by_contra hin
      exact hx (hfresh₁ x (by omega) (by omega))
    exact (hkept₂ x fun hcon => hx (hmanaged x hcon)).trans ((hpid x hout).trans (hkept₁ x hx))
  case pid =>
    rw [← pid_setPid heap₁.mem t m.nextPid]
    refine pid_congr hfit fun x hlow hhigh => hkept₂ x ?_
    refine Heap.not_managed_of_mem (List.mem_cons_self ..) (show t.toNat ≤ x by omega) ?_
    rw [hsizes₁ t (List.mem_cons_self ..)]
    omega

theorem Kept.setUp (taskExit entry : Word) (h : Kept m ts s c) (ha : Allocated m ts t base heap) :
    ∃ m', setUp taskExit m entry heap t base = .ok (m', t) ∧
      Created taskExit m ts entry heap t base m' := by
  have hstart := Heap.heapVirtStart_toNat
  have hlen := h.ring.lt
  have hlast : lastPtr ts ∈ ts := ptr_mem (by omega)
  have hfitLast := h.fits hlast
  have hrecord := ha.record
  have hstack := ha.stack
  have hmemT : t ∈ base :: t :: live m.mem ts := List.mem_cons_of_mem _ (List.mem_cons_self ..)
  have hmemB : base ∈ base :: t :: live m.mem ts := List.mem_cons_self ..
  have hboundT := (ha.sound.bounds hmemT).2
  have hboundB := (ha.sound.bounds hmemB).2
  have hfit : Fits t := by
    unfold Fits
    omega
  -- the record and the stack are apart from the record at the end of the list
  have hfreshT : ∀ x, t.toNat ≤ x → x < t.toNat + 32 → Managed m.heap (live m.mem ts) x :=
    fun x hlow hhigh => ha.fresh x (Or.inl ⟨hlow, hhigh⟩)
  have hfreshB : ∀ x, base.toNat ≤ x → x < base.toNat + 8192 → Managed m.heap (live m.mem ts) x :=
    fun x hlow hhigh => ha.fresh x (Or.inr ⟨hlow, hhigh⟩)
  have hLT : t.toNat + 32 ≤ (lastPtr ts).toNat ∨ (lastPtr ts).toNat + 32 ≤ t.toNat :=
    apart_of_forall (by omega) (by omega) fun x hlow hhigh hin =>
      h.not_managed hlast hin (hfreshT x hlow hhigh)
  have hLB : base.toNat + 8192 ≤ (lastPtr ts).toNat ∨ (lastPtr ts).toNat + 32 ≤ base.toNat :=
    apart_of_forall (by omega) (by omega) fun x hlow hhigh hin =>
      h.not_managed hlast hin (hfreshB x hlow hhigh)
  have hTB : t.toNat + 32 ≤ base.toNat ∨ base.toNat + 8192 ≤ t.toNat := by
    have hnodup := ha.sound.nodup
    have hne : t ≠ base := by
      rintro rfl
      exact (List.nodup_cons.mp hnodup).1 (List.mem_cons_self ..)
    have hapart := ha.sound.apart hmemT hmemB hne
    omega
  rw [Context.setUp]
  dsimp only
  have hbaseT : stackBase (setState (setStackBase heap.mem t base) t taskReady) t = base := by
    rw [← stackBase_setStackBase heap.mem t base]
    refine stackBase_congr hfit fun x hlow hhigh => ?_
    rw [stackBase_setStackBase, setState_outside hfit (by omega)]
  rw [hbaseT]
  obtain ⟨hsp, hframed, hbuilt⟩ := buildFrame_spec taskExit entry
    (setState (setStackBase heap.mem t base) t taskReady)
    (show base.toNat + 8192 < 2 ^ 64 by omega)
  rw [hsp]
  generalize hmemF : (buildFrame taskExit entry
    (setState (setStackBase heap.mem t base) t taskReady) (base + taskStackSize)).1 = memF at *
  have hbytesF : ∀ x, (x < t.toNat + 8 ∨ t.toNat + 24 ≤ x) →
      (x < base.toNat + 8120 ∨ base.toNat + 8192 ≤ x) → memF x = heap.mem x := by
    intro x hx hx'
    rw [hbuilt x hx', setState_outside hfit (by omega), setStackBase_outside hfit (by omega)]
  generalize hmemR : setRsp memF t (base + 8120#64) = memR
  have hbytesR : ∀ x, (x < t.toNat ∨ t.toNat + 8 ≤ x) → memR x = memF x := by
    intro x hx
    rw [← hmemR, setRsp_outside hx]
  have hold : ∀ x, ¬ Managed m.heap (live m.mem ts) x → memR x = m.mem x := by
    intro x hx
    have hoT : ¬ (t.toNat ≤ x ∧ x < t.toNat + 32) := fun hin => hx (hfreshT x hin.1 hin.2)
    have hoB : ¬ (base.toNat ≤ x ∧ x < base.toNat + 8192) := fun hin => hx (hfreshB x hin.1 hin.2)
    rw [hbytesR x (by omega), hbytesF x (by omega) (by omega), ha.kept x hx]
  have hlastTask : lastTask memR m.taskList walkFuel m.taskList = .ok (lastPtr ts) := by
    rw [h.mirrors.list]
    refine lastTask_spec h.mirrors.nodup (fun i hi => ?_) (by omega)
      (by have := h.length_lt; omega)
    have hnext : Context.next memR (ptr ts i) = Context.next m.mem (ptr ts i) :=
      next_congr (h.fits (ptr_mem hi)) fun x hlow hhigh =>
        hold x (h.not_managed (ptr_mem hi) ⟨by omega, by omega⟩)
    rw [hnext, h.mirrors.next i hi, h.ring.next i hi]
  rw [hlastTask]
  refine ⟨_, rfl, ?_⟩
  generalize hmemN : setNext (setNext memR (lastPtr ts) t) t m.taskList = memN
  have hbytesN : ∀ x, (x < (lastPtr ts).toNat + 24 ∨ (lastPtr ts).toNat + 32 ≤ x) →
      (x < t.toNat + 24 ∨ t.toNat + 32 ≤ x) → memN x = memR x := by
    intro x hx hx'
    rw [← hmemN, setNext_outside hfit hx', setNext_outside hfitLast hx]
  have hmanagedN : ∀ x, Managed heap (base :: t :: live m.mem ts) x → memN x = heap.mem x := by
    intro x hx
    have hoT := hx.2.2 t hmemT
    have hoB := hx.2.2 base hmemB
    have hoL := hx.2.2 _ (List.mem_cons_of_mem _ (List.mem_cons_of_mem _ (mem_live hlast)))
    have hsizeL := h.record _ hlast
    rw [ha.sizes _ (mem_live hlast)] at hoL
    rw [hbytesN x (by omega) (by omega), hbytesR x (by omega), hbytesF x (by omega) (by omega)]
  obtain ⟨hsound, hsizes⟩ := ha.sound.keep hmanagedN
  have hrecord' : ∀ x, t.toNat + 8 ≤ x → x < t.toNat + 24 →
      memN x = setState (setStackBase heap.mem t base) t taskReady x := by
    intro x hlow hhigh
    rw [hbytesN x (by omega) (by omega), hbytesR x (by omega), hbuilt x (by omega)]
  constructor
  case blocks => exact fun bs hbs => hbs.keep ha.sound hmanagedN
  case sound => exact hsound
  case sizes =>
    intro p hp
    exact (hsizes p (List.mem_cons_of_mem _ (List.mem_cons_of_mem _ hp))).trans (ha.sizes p hp)
  case record => exact hrecord.trans_eq (hsizes t hmemT).symm
  case stack => exact hstack.trans_eq (hsizes base hmemB).symm
  case fresh => exact ha.fresh
  case kept =>
    intro x hx hx'
    have hoT : ¬ (t.toNat ≤ x ∧ x < t.toNat + 32) := fun hin => hx (hfreshT x hin.1 hin.2)
    exact (hbytesN x hx' (by omega)).trans (hold x hx)
  case rsp =>
    show rsp memN t = _
    rw [← rsp_setRsp memF t (base + 8120#64), hmemR]
    exact rsp_congr fun x hlow hhigh => hbytesN x (by omega) (by omega)
  case stackBase =>
    show stackBase memN t = base
    rw [← hbaseT]
    refine stackBase_congr hfit fun x hlow hhigh => ?_
    exact hrecord' x hlow (by omega)
  case pid =>
    show pid memN t = m.nextPid
    rw [← ha.pid]
    refine pid_congr hfit fun x hlow hhigh => ?_
    rw [hrecord' x (by omega) (by omega), setState_outside hfit (by omega),
      setStackBase_outside hfit (by omega)]
  case state =>
    show state memN t = taskReady
    rw [← state_setState (setStackBase heap.mem t base) t taskReady]
    refine state_congr hfit fun x hlow hhigh => ?_
    exact hrecord' x (by omega) hhigh
  case next =>
    show next memN t = m.taskList
    rw [← hmemN, next_setNext]
  case last =>
    show next memN (lastPtr ts) = t
    rw [← hmemN, ← next_setNext memR (lastPtr ts) t]
    refine next_congr hfitLast fun x hlow hhigh => ?_
    rw [next_setNext, setNext_outside hfit (by omega)]
  case framed =>
    refine hframed.congr fun x hlow hhigh => ?_
    rw [List.length_append, length_frame] at hhigh
    have hlen : 8 * (calleeSaved.length + 2 + [taskExit].length) = 72 := rfl
    show memN x = memF x
    rw [hbytesN x (by omega) (by omega), hbytesR x (by omega)]
  case rest => rfl

/-! ## The list after `task_create` -/

/-- The record at the end of the list is the only one that has changed, in its link. -/
theorem Created.records (hc : Created taskExit m ts entry heap t base m') (h : Kept m ts s c) :
    ∀ u ∈ ts, SameRecord m.mem m'.mem u ∧
      (u ≠ lastPtr ts → Context.next m'.mem u = Context.next m.mem u) := by
  intro u hu
  have hlen := h.ring.lt
  have hlast : lastPtr ts ∈ ts := ptr_mem (by omega)
  have hbytes : ∀ x, u.toNat ≤ x → x < u.toNat + 32 → (u ≠ lastPtr ts ∨ x < u.toNat + 24) →
      m'.mem x = m.mem x := by
    intro x hlow hhigh hcase
    refine hc.kept x (h.not_managed hu ⟨hlow, hhigh⟩) ?_
    by_cases hul : u = lastPtr ts
    · rw [← hul]
      exact Or.inl (hcase.resolve_left (not_not_intro hul))
    · have hfar := h.records_apart hu hlast hul
      omega
  refine ⟨⟨?_, ?_, ?_, ?_⟩, fun hne => ?_⟩
  · exact rsp_congr fun x _ _ => hbytes x (by omega) (by omega) (Or.inr (by omega))
  · exact stackBase_congr (h.fits hu) fun x _ _ =>
      hbytes x (by omega) (by omega) (Or.inr (by omega))
  · exact pid_congr (h.fits hu) fun x _ _ => hbytes x (by omega) (by omega) (Or.inr (by omega))
  · exact state_congr (h.fits hu) fun x _ _ => hbytes x (by omega) (by omega) (Or.inr (by omega))
  · exact next_congr (h.fits hu) fun x _ _ => hbytes x (by omega) (by omega) (Or.inl hne)

theorem Created.not_mem (hc : Created taskExit m ts entry heap t base m') (h : Kept m ts s c) :
    t ∉ ts := by
  intro ht
  refine h.not_managed ht ⟨Nat.le_refl _, by omega⟩ (hc.fresh t.toNat (Or.inl ⟨Nat.le_refl _, ?_⟩))
  omega

theorem Created.mirrors (hc : Created taskExit m ts entry heap t base m') (h : Kept m ts s c)
    {s' : Scheduler.State} (hring : Ring s' (ts.length + 1) c)
    (hsame : ∀ i, i < ts.length → (s'.node i).state = (s.node i).state)
    (hready : s'.Ready ts.length) : Mirrors m' (ts ++ [t]) s' c := by
  have hrecords := hc.records h
  have hmir := h.mirrors
  have hlt := h.ring.lt
  have hlen : (ts ++ [t]).length = ts.length + 1 := by rw [List.length_append]; rfl
  have hcases : ∀ i, i < (ts ++ [t]).length → i < ts.length ∨ i = ts.length := by omega
  have hlist : m'.taskList = m.taskList := by rw [hc.rest]
  have hcurrent : m'.currentTask = m.currentTask := by rw [hc.rest]
  have hnextPid : m'.nextPid = m.nextPid + 1#32 := by rw [hc.rest]
  constructor
  case linked =>
    rw [hlen]
    exact hring.toLinked
  case nodup =>
    refine List.Nodup.append hmir.nodup (List.nodup_singleton t) ?_
    intro u hu hu'
    obtain rfl := List.mem_singleton.mp hu'
    exact hc.not_mem h hu
  case list => rw [hlist, hmir.list, ptr_append_left (by omega)]
  case current => rw [hcurrent, hmir.current, ptr_append_left hlt]
  case state =>
    intro i hi
    rcases hcases i hi with hi | rfl
    · rw [ptr_append_left hi, (hrecords _ (ptr_mem hi)).1.state, hmir.state i hi, hsame i hi]
    · have hnew : (s'.node ts.length).state = .ready := hready
      rw [ptr_append_right, hc.state, hnew]
      rfl
  case pid =>
    intro i hi
    rcases hcases i hi with hi | rfl
    · rw [ptr_append_left hi, (hrecords _ (ptr_mem hi)).1.pid, hmir.pid i hi, hring.pid i (by omega),
        h.ring.pid i hi]
    · rw [ptr_append_right, hc.pid, hmir.nextPid, h.ring.nextPid, hring.pid _ (by omega)]
  case next =>
    intro i hi
    have hsucc := succ_mod (show i < ts.length + 1 by omega)
    rw [hring.next i (by omega), hsucc]
    rcases hcases i hi with hi | rfl
    · rw [if_neg (by omega), ptr_append_left hi]
      by_cases hlast : i + 1 = ts.length
      · rw [hlast, ptr_append_right, ← hc.last, lastPtr, show ts.length - 1 = i by omega]
      · have hne : ptr ts i ≠ lastPtr ts := by
          rw [lastPtr, Ne, ptr_inj hmir.nodup hi (by omega)]
          omega
        rw [(hrecords _ (ptr_mem hi)).2 hne, hmir.next i hi, h.ring.next i hi, succ_mod hi,
          if_neg hlast, ptr_append_left (by omega)]
    · rw [if_pos rfl, ptr_append_right, hc.next, hmir.list, ptr_append_left (by omega)]
  case nextPid => rw [hnextPid, hmir.nextPid, h.ring.nextPid, hring.nextPid, BitVec.ofNat_add]

theorem Created.live_perm (hc : Created taskExit m ts entry heap t base m') (h : Kept m ts s c) :
    (live m'.mem (ts ++ [t])).Perm (base :: t :: live m.mem ts) := by
  have hlen := h.ring.lt
  have hne : ts ≠ [] := by
    rintro rfl
    exact absurd hlen (Nat.not_lt_zero _)
  have hbases : ts.tail.map (Context.stackBase m'.mem) = ts.tail.map (Context.stackBase m.mem) :=
    List.map_congr_left fun u hu => (hc.records h u (List.mem_of_mem_tail hu)).1.stackBase
  rw [live, live, List.tail_append_of_ne_nil hne, List.map_append, hbases, List.map_singleton,
    hc.stackBase, ← List.append_assoc, List.append_assoc ts]
  refine (List.perm_append_singleton _ _).trans (List.Perm.cons _ ?_)
  exact List.perm_middle

/-- **The new task is suspended, and no other one is disturbed.** -/
theorem Created.keeps (hc : Created taskExit m ts entry heap t base m') (h : Kept m ts s c)
    {s' : Scheduler.State} (hring : Ring s' (ts.length + 1) c)
    (hsame : ∀ i, i < ts.length → (s'.node i).state = (s.node i).state)
    (hready : s'.Ready ts.length) :
    Kept m' (ts ++ [t]) s' c ∧ Resumes m'.mem t (firstCpu entry base) ∧
      ∀ u ∈ ts, Context.state m.mem u = taskReady → SameFrame m.mem m'.mem u := by
  have hstart := Heap.heapVirtStart_toNat
  have hrecords := hc.records h
  have hperm := hc.live_perm h
  have hmem : ∀ u ∈ ts ++ [t], u ∈ ts ∨ u = t := fun u hu =>
    (List.mem_append.mp hu).imp_right List.mem_singleton.mp
  have hbaseMem : base ∈ live m'.mem (ts ++ [t]) := hperm.mem_iff.mpr (List.mem_cons_self ..)
  have hbound := (hc.sound.bounds (List.mem_cons_self ..)).2
  have hstack := hc.stack
  have hmanaged : ∀ x, Managed m'.heap (live m'.mem (ts ++ [t])) x →
      Managed m.heap (live m.mem ts) x := by
    rintro x ⟨hlow, hhigh, hout⟩
    refine ⟨hlow, hhigh, fun p hp => ?_⟩
    rw [← hc.sizes p hp]
    exact hout p (hperm.mem_iff.mpr (List.mem_cons_of_mem _ (List.mem_cons_of_mem _ hp)))
  have hrsp : (Context.rsp m'.mem t).toNat = base.toNat + 8120 := by
    rw [hc.rsp, BitVec.toNat_add, BitVec.toNat_ofNat]
    omega
  -- the frame of the new task is in bytes that were the heap's own
  have hframeT : ∀ x, InFrame m'.mem t x → base.toNat ≤ x ∧ x < base.toNat + 8192 := by
    rintro x ⟨hlow, hhigh⟩
    omega
  have hfresh : ∀ x, InFrame m'.mem t x → Managed m.heap (live m.mem ts) x :=
    fun x hx => hc.fresh x (Or.inr (hframeT x hx))
  have hold : ∀ u ∈ ts, Context.state m.mem u = taskReady → SameFrame m.mem m'.mem u := by
    intro u hu hu'
    refine ⟨(hrecords u hu).1.rsp, fun x hx => hc.kept x (h.unmanaged u hu hu' x hx) ?_⟩
    have hout := h.unrecorded u hu hu' (lastPtr ts) (ptr_mem (by have := h.ring.lt; omega)) x hx
    unfold InRecord at hout
    omega
  have hstates : ∀ u ∈ ts, Context.state m'.mem u = taskReady → Context.state m.mem u = taskReady :=
    fun u hu hu' => (hrecords u hu).1.state.symm.trans hu'
  have hresumes : Resumes m'.mem t (firstCpu entry base) := by
    constructor
    case framed =>
      rw [hrsp]
      exact ((framed_append _ _ _).mp hc.framed).1
    case sp =>
      rw [hc.rsp, BitVec.add_assoc]
      rfl
    case high => omega
  refine ⟨?_, hresumes, hold⟩
  have hlen : (ts ++ [t]).length = ts.length + 1 := by rw [List.length_append]; rfl
  constructor
  case mirrors => exact hc.mirrors h hring hsame hready
  case ring =>
    rw [hlen]
    exact hring
  case sound => exact hc.sound.perm hperm
  case record =>
    intro u hu
    rcases hmem u hu with hu | rfl
    · rw [hc.sizes u (mem_live hu)]
      exact h.record u hu
    · exact hc.record
  case stack =>
    intro u hu
    rw [List.tail_append_of_ne_nil (by rintro rfl; exact absurd h.ring.lt (Nat.not_lt_zero _))] at hu
    rcases List.mem_append.mp hu with hu | hu
    · rw [(hrecords u (List.mem_of_mem_tail hu)).1.stackBase,
        hc.sizes _ (List.mem_append_right _ (List.mem_map_of_mem hu))]
      exact h.stack u hu
    · rw [List.mem_singleton.mp hu, hc.stackBase]
      exact hstack
  case resumes =>
    intro u hu hu'
    rcases hmem u hu with hu | rfl
    · obtain ⟨k, hk⟩ := h.resumes u hu (hstates u hu hu')
      exact ⟨k, (hold u hu (hstates u hu hu')).resumes hk⟩
    · exact ⟨_, hresumes⟩
  case unmanaged =>
    intro u hu hu' x hx hx'
    rcases hmem u hu with hu | rfl
    · rw [InFrame, (hrecords u hu).1.rsp] at hx
      exact h.unmanaged u hu (hstates u hu hu') x hx (hmanaged x hx')
    · obtain ⟨hlow, hhigh⟩ := hframeT x hx
      exact Heap.not_managed_of_mem hbaseMem hlow (by omega) hx'
  case unrecorded =>
    intro u hu hu' v hv x hx hx'
    rcases hmem u hu with hold' | rfl
    · rw [InFrame, (hrecords u hold').1.rsp] at hx
      rcases hmem v hv with holdv | rfl
      · exact h.unrecorded u hold' (hstates u hold' hu') v holdv x hx hx'
      · exact h.unmanaged u hold' (hstates u hold' hu') x hx (hc.fresh x (Or.inl hx'))
    · rcases hmem v hv with holdv | rfl
      · exact h.not_managed holdv hx' (hfresh x hx)
      · have hne : v ≠ base := by
          rintro rfl
          exact (List.nodup_cons.mp hc.sound.nodup).1 (List.mem_cons_self ..)
        have hapart := hc.sound.apart (List.mem_cons_of_mem _ (List.mem_cons_self ..))
          (List.mem_cons_self ..) hne
        have hsize := hc.record
        obtain ⟨hlow, hhigh⟩ := hframeT x hx
        obtain ⟨hlow', hhigh'⟩ := hx'
        omega
  case apart =>
    intro u hu hu' v hv hv' hne x hx hx'
    rcases hmem u hu with hold' | rfl
    · have hxu := hx
      rw [InFrame, (hrecords u hold').1.rsp] at hxu
      rcases hmem v hv with holdv | rfl
      · rw [InFrame, (hrecords v holdv).1.rsp] at hx'
        exact h.apart u hold' (hstates u hold' hu') v holdv (hstates v holdv hv') hne x hxu hx'
      · exact h.unmanaged u hold' (hstates u hold' hu') x hxu (hfresh x hx')
    · rcases hmem v hv with holdv | rfl
      · rw [InFrame, (hrecords v holdv).1.rsp] at hx'
        exact h.unmanaged v holdv (hstates v holdv hv') x hx' (hfresh x hx)
      · exact hne rfl

end Create

/-! ## `scheduler_init` -/

section Start

variable {m : Machine} {heap : Heap.State} {main : Word}

/-- Right after `heap_init`. -/
def Fresh (m : Machine) : Prop := (∃ s, m.heap = Heap.heapInit s) ∧ m.nextPid = 1#32

theorem Fresh.sound (h : Fresh m) : Sound m.heap [] :=
  Heap.Started.sound (c := ⟨m.heap, []⟩) ⟨h.1, rfl⟩

theorem schedulerInit_ok (hk : Heap.kmalloc m.heap taskSize = .ok (heap, main)) :
    schedulerInit m = .ok { m with
      heap := { heap with
        mem := setNext (setState (setPid heap.mem main 0#32) main taskRunning) main main }
      currentTask := main
      taskList := main } := by
  simp only [schedulerInit, hk, bind, Except.bind]

/-- The main task alone is a ring. -/
theorem Fresh.starts (h : Fresh m) (hk : Heap.kmalloc m.heap taskSize = .ok (heap, main)) :
    ∃ m', schedulerInit m = .ok m' ∧ m'.currentTask = main ∧ m'.cpu = m.cpu ∧
      Kept m' [main] (Scheduler.schedulerInit Scheduler.unstarted) 0 ∧
      ∀ bs, Heap.Blocks heap bs → Heap.Blocks m'.heap bs := by
  have hstart := Heap.heapVirtStart_toNat
  have hmalloc := h.sound.malloc (by decide) (by decide) hk
  have hlarge : 32 ≤ payloadSize heap main := hmalloc.large
  have hbound := (hmalloc.sound.bounds (List.mem_singleton_self main)).2
  have hfit : Fits main := by
    unfold Fits
    omega
  refine ⟨_, schedulerInit_ok hk, rfl, rfl, ?_⟩
  generalize hmem : setNext (setState (setPid heap.mem main 0#32) main taskRunning) main main = mem
  have hout : ∀ x, (x < main.toNat ∨ main.toNat + 32 ≤ x) → mem x = heap.mem x := by
    intro x hx
    rw [← hmem, setNext_outside hfit (by omega), setState_outside hfit (by omega),
      setPid_outside hfit (by omega)]
  have hmanaged : ∀ x, Managed heap [main] x → mem x = heap.mem x := fun x hx =>
    hout x (by have := hx.2.2 main (List.mem_singleton_self main); omega)
  obtain ⟨hsound, hsizes⟩ := hmalloc.sound.keep hmanaged
  have hpid : pid mem main = 0#32 := by
    rw [← pid_setPid heap.mem main 0#32, ← hmem]
    refine pid_congr hfit fun x _ _ => ?_
    rw [setNext_outside hfit (by omega), setState_outside hfit (by omega)]
  have hstate : state mem main = taskRunning := by
    rw [← state_setState (setPid heap.mem main 0#32) main taskRunning, ← hmem]
    refine state_congr hfit fun x _ _ => ?_
    rw [setNext_outside hfit (by omega)]
  have hnext : next mem main = main := by rw [← hmem, next_setNext]
  have hring := Scheduler.schedulerInit_ring
  have hnone : ∀ u ∈ [main], state mem u ≠ taskReady := by
    intro u hu
    rw [List.mem_singleton.mp hu, hstate]
    decide
  have hzero : ∀ i, i < [main].length → i = 0 := fun i hi => Nat.lt_one_iff.mp hi
  refine ⟨?_, fun bs hbs => hbs.keep hmalloc.sound hmanaged⟩
  constructor
  case mirrors =>
    constructor
    case linked => exact hring.toLinked
    case nodup => exact List.nodup_singleton main
    case list => rfl
    case current => rfl
    case state =>
      intro i hi
      obtain rfl := hzero i hi
      have hrunning : ((Scheduler.schedulerInit Scheduler.unstarted).node 0).state = .running :=
        (hring.running 0 Nat.zero_lt_one).mpr rfl
      rw [hrunning]
      exact hstate
    case pid =>
      intro i hi
      obtain rfl := hzero i hi
      rw [hring.pid 0 Nat.zero_lt_one]
      exact hpid
    case next =>
      intro i hi
      obtain rfl := hzero i hi
      rw [hring.next 0 Nat.zero_lt_one]
      exact hnext
    case nextPid =>
      rw [hring.nextPid]
      exact h.2
  case ring => exact hring
  case sound => exact hsound
  case record =>
    intro u hu
    rw [List.mem_singleton.mp hu]
    exact hlarge.trans_eq (hsizes main (List.mem_singleton_self main)).symm
  case stack => exact fun u hu => absurd hu List.not_mem_nil
  case resumes => exact fun u hu hready => absurd hready (hnone u hu)
  case unmanaged => exact fun u hu hready => absurd hready (hnone u hu)
  case unrecorded => exact fun u hu hready => absurd hready (hnone u hu)
  case apart => exact fun u hu hready => absurd hready (hnone u hu)

end Start

end VectorForth.Context
