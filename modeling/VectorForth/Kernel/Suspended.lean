import Mathlib.Data.List.GetD
import VectorForth.Kernel.Context
import VectorForth.Kernel.Scheduling

/-!
# Suspended tasks

Runs of the scheduler on bytes. A running task may do what it likes with its
registers and with memory, except for the bytes that are not its own: those of
the heap, the task records, and what the other tasks need to go on. `Kept` ties
the records to the ring of the scheduler model, and says that those bytes are
apart. A step then either resumes a suspended task, with what its frame holds,
or leaves that frame alone.
-/

namespace VectorForth.Context

open ByteMemory LabelledRun RoundRobin
open CallStack hiding Word
open Heap (Word Stop Managed payloadSize Sound walkFuel)
open Forth (TaskState)
open Scheduler (Linked Ring)

/-! ## The list in memory -/

/-- The value of an enumerator of `task_state_t`. -/
def code : TaskState → BitVec 32
  | .running => taskRunning
  | .ready => taskReady
  | .dead => taskDead

theorem code_inj {a b : TaskState} : code a = code b ↔ a = b := by
  constructor
  · cases a <;> cases b <;> decide
  · rintro rfl
    rfl

/-- The record of task `i`. -/
def ptr (ts : List Word) (i : Nat) : Word := ts.getD i 0#64

/-- The records `ts` in memory are the list of the scheduler model. -/
structure Mirrors (m : Machine) (ts : List Word) (s : Scheduler.State) (c : Nat) : Prop where
  linked : Linked s ts.length c
  nodup : ts.Nodup
  list : m.taskList = ptr ts 0
  current : m.currentTask = ptr ts c
  state : ∀ i, i < ts.length → state m.mem (ptr ts i) = code (s.node i).state
  pid : ∀ i, i < ts.length → pid m.mem (ptr ts i) = (s.node i).pid
  next : ∀ i, i < ts.length → next m.mem (ptr ts i) = ptr ts (s.node i).next
  nextPid : m.nextPid = s.nextPid

section List

variable {m : Machine} {mem : Mem} {ts : List Word} {s : Scheduler.State} {c i j fuel : Nat}
  {t : Word}

theorem ptr_mem (hi : i < ts.length) : ptr ts i ∈ ts := by
  rw [ptr, List.getD_eq_getElem _ _ hi]
  exact List.getElem_mem hi

theorem exists_ptr (ht : t ∈ ts) : ∃ i, i < ts.length ∧ ptr ts i = t := by
  obtain ⟨i, hi, rfl⟩ := List.getElem_of_mem ht
  exact ⟨i, hi, List.getD_eq_getElem _ _ hi⟩

theorem ptr_inj (h : ts.Nodup) (hi : i < ts.length) (hj : j < ts.length) :
    ptr ts i = ptr ts j ↔ i = j := by
  rw [ptr, ptr, List.getD_eq_getElem _ _ hi, List.getD_eq_getElem _ _ hj]
  exact h.getElem_inj_iff

theorem ptr_append_left (hi : i < ts.length) : ptr (ts ++ [t]) i = ptr ts i := by
  rw [ptr, ptr, List.getD_append _ _ _ _ hi]

theorem ptr_append_right : ptr (ts ++ [t]) ts.length = t := by
  rw [ptr, List.getD_append_right _ _ _ _ (Nat.le_refl _), Nat.sub_self, List.getD_cons_zero]

/-- By induction on the rest of the round. -/
theorem lastTask_spec (hnodup : ts.Nodup)
    (hnext : ∀ i, i < ts.length → next mem (ptr ts i) = ptr ts ((i + 1) % ts.length))
    (hi : i < ts.length) (hfuel : ts.length ≤ i + fuel) :
    lastTask mem (ptr ts 0) fuel (ptr ts i) = .ok (ptr ts (ts.length - 1)) := by
  induction fuel generalizing i with
  | zero => omega
  | succ fuel ih =>
      have hsucc := succ_mod hi
      rw [lastTask, hnext i hi, hsucc]
      by_cases hlast : i + 1 = ts.length
      · rw [if_pos hlast, if_neg (by simp), show ts.length - 1 = i by omega]
      · have hne : ptr ts (i + 1) ≠ ptr ts 0 := by
          rw [ne_eq, ptr_inj hnodup (by omega) (by omega)]
          omega
        rw [if_neg hlast, if_pos hne]
        exact ih (by omega) (by omega)

/-- The two searches go side by side. -/
theorem Mirrors.findNext_eq (h : Mirrors m ts s c) (hi : i < ts.length)
    (hfind : Scheduler.findNext s c fuel i = some j) :
    findNext m.mem m.currentTask fuel (ptr ts i) = .ok (ptr ts j) := by
  have hc := h.linked.lt
  induction fuel generalizing i with
  | zero => cases hfind
  | succ fuel ih =>
      have hready : Context.state m.mem (ptr ts i) = taskReady ↔ (s.node i).state = .ready := by
        rw [h.state i hi]
        exact code_inj (b := .ready)
      have hrunning : Context.state m.mem (ptr ts i) = taskRunning ↔ (s.node i).state = .running := by
        rw [h.state i hi]
        exact code_inj (b := .running)
      rw [Scheduler.findNext] at hfind
      have hstop : (Context.state m.mem (ptr ts i) ≠ taskReady ∧ ptr ts i ≠ ptr ts c) ↔
          ((s.node i).state ≠ .ready ∧ i ≠ c) := by
        rw [ne_eq, ne_eq, hready, ptr_inj h.nodup hi hc]
      rw [findNext, h.current]
      split at hfind
      · rename_i hgo
        rw [if_pos (hstop.mpr hgo)]
        split at hfind
        · rename_i hr
          rw [if_pos (hrunning.mpr hr), Option.some.inj hfind]
        · rename_i hr
          rw [if_neg (fun hcon => hr (hrunning.mp hcon)), h.next i hi, ← h.current]
          refine ih ?_ hfind
          rw [h.linked.next i hi]
          exact succ_mod_lt hi
      · rename_i hgo
        rw [if_neg (fun hcon => hgo (hstop.mp hcon)), Option.some.inj hfind]

theorem findNext_mono {fuel' : Nat} (h : Scheduler.findNext s c fuel i = some j)
    (hle : fuel ≤ fuel') : Scheduler.findNext s c fuel' i = some j := by
  induction fuel generalizing i fuel' with
  | zero => cases h
  | succ fuel ih =>
      obtain ⟨fuel', rfl⟩ : ∃ k, fuel' = k + 1 := ⟨fuel' - 1, by omega⟩
      rw [Scheduler.findNext] at h ⊢
      split at h
      · rename_i hgo
        rw [if_pos hgo]
        split at h
        · rename_i hr
          rw [if_pos hr]
          exact h
        · rename_i hr
          rw [if_neg hr]
          exact ih h (by omega)
      · rename_i hgo
        rw [if_neg hgo]
        exact h

end List

/-! ## What is not the running task's own -/

def InRecord (t : Word) (x : Nat) : Prop := t.toNat ≤ x ∧ x < t.toNat + 32

/-- The frame of a suspended task, and the word above it: below the frame of a
new task, that is where its entry function returns to. -/
def InFrame (mem : Mem) (t : Word) (x : Nat) : Prop :=
  (rsp mem t).toNat ≤ x ∧ x < (rsp mem t).toNat + 72

/-- A suspended task has been left alone. -/
structure SameFrame (mem mem' : Mem) (t : Word) : Prop where
  rsp : rsp mem' t = rsp mem t
  bytes : ∀ x, InFrame mem t x → mem' x = mem x

/-- What `task.c` has allocated. -/
def live (mem : Mem) (ts : List Word) : List Word := ts ++ ts.tail.map (stackBase mem)

/-- The bytes that the running task leaves alone. -/
inductive Private (m : Machine) (ts : List Word) (x : Nat) : Prop
  | heap (h : Managed m.heap (live m.mem ts) x)
  | record {t : Word} (ht : t ∈ ts) (h : InRecord t x)
  | frame {t : Word} (ht : t ∈ ts) (hready : state m.mem t = taskReady) (h : InFrame m.mem t x)

/-- The running task has its own stack below its stack pointer, as far as a
switch needs it. -/
structure Room (m : Machine) (ts : List Word) : Prop where
  low : 64 ≤ m.cpu.sp.toNat
  own : ∀ x, m.cpu.sp.toNat - 64 ≤ x → x < m.cpu.sp.toNat + 8 → ¬ Private m ts x

/-- The invariant: the records are the ring, every READY task can be resumed,
and what it needs for that is apart from everything else. -/
structure Kept (m : Machine) (ts : List Word) (s : Scheduler.State) (c : Nat) : Prop where
  mirrors : Mirrors m ts s c
  ring : Ring s ts.length c
  sound : Sound m.heap (live m.mem ts)
  record : ∀ t ∈ ts, 32 ≤ payloadSize m.heap t
  stack : ∀ t ∈ ts.tail, 8192 ≤ payloadSize m.heap (stackBase m.mem t)
  resumes : ∀ t ∈ ts, state m.mem t = taskReady → ∃ k, Resumes m.mem t k
  unmanaged : ∀ t ∈ ts, state m.mem t = taskReady → ∀ x, InFrame m.mem t x →
    ¬ Managed m.heap (live m.mem ts) x
  unrecorded : ∀ t ∈ ts, state m.mem t = taskReady → ∀ u ∈ ts, ∀ x, InFrame m.mem t x →
    ¬ InRecord u x
  apart : ∀ t ∈ ts, state m.mem t = taskReady → ∀ u ∈ ts, state m.mem u = taskReady → t ≠ u →
    ∀ x, InFrame m.mem t x → ¬ InFrame m.mem u x

section Kept

variable {m m' : Machine} {mem mem' : Mem} {ts : List Word} {s s' : Scheduler.State} {c j x : Nat}
  {t u : Word} {k cpu : Cpu Reg}

theorem SameFrame.trans {mem'' : Mem} (h : SameFrame mem mem' t) (h' : SameFrame mem' mem'' t) :
    SameFrame mem mem'' t := by
  refine ⟨h'.rsp.trans h.rsp, fun x hx => ?_⟩
  refine (h'.bytes x ?_).trans (h.bytes x hx)
  rw [InFrame, h.rsp]
  exact hx

theorem SameFrame.resumes (h : SameFrame mem mem' t) (hk : Resumes mem t k) :
    Resumes mem' t k :=
  hk.congr h.rsp fun x hlow hhigh => h.bytes x ⟨hlow, by omega⟩

theorem SameFrame.framed {ws : List Word} (h : SameFrame mem mem' t) (hlen : ws.length ≤ 9)
    (hw : Framed mem (Context.rsp mem t).toNat ws) :
    Framed mem' (Context.rsp mem' t).toNat ws := by
  rw [h.rsp]
  exact hw.congr fun x hlow hhigh => h.bytes x ⟨hlow, by omega⟩

theorem mem_live (ht : t ∈ ts) : t ∈ live mem ts := List.mem_append_left _ ht

/-- Two intervals without a common element. -/
theorem apart_of_forall {a b n k : Nat} (hn : 0 < n) (hk : 0 < k)
    (h : ∀ x, a ≤ x → x < a + n → ¬ (b ≤ x ∧ x < b + k)) : a + n ≤ b ∨ b + k ≤ a := by
  have hmax := h (max a b)
  omega

theorem Kept.fits (h : Kept m ts s c) (ht : t ∈ ts) : Fits t := by
  have hbound := (h.sound.bounds (mem_live ht)).2
  have hsize := h.record t ht
  have hstart := Heap.heapVirtStart_toNat
  unfold Fits
  omega

theorem Kept.not_managed (h : Kept m ts s c) (ht : t ∈ ts) (hx : InRecord t x) :
    ¬ Managed m.heap (live m.mem ts) x := by
  have hsize := h.record t ht
  obtain ⟨hlow, hhigh⟩ := hx
  exact Heap.not_managed_of_mem (mem_live ht) hlow (by omega)

theorem Kept.records_apart (h : Kept m ts s c) (ht : t ∈ ts) (hu : u ∈ ts) (hne : t ≠ u) :
    t.toNat + 32 ≤ u.toNat ∨ u.toNat + 32 ≤ t.toNat := by
  have hapart := h.sound.apart (mem_live ht) (mem_live hu) hne
  have hsize := h.record t ht
  have hsize' := h.record u hu
  omega

theorem live_congr (hbase : ∀ t ∈ ts, stackBase mem t = stackBase m.mem t) :
    live mem ts = live m.mem ts := by
  rw [live, live, List.map_congr_left fun t ht => hbase t (List.mem_of_mem_tail ht)]

/-- Every READY task other than the current one is in the ring of the model. -/
theorem Kept.ready_iff (h : Kept m ts s c) {i : Nat} (hi : i < ts.length) :
    state m.mem (ptr ts i) = taskReady ↔ s.Ready i := by
  rw [h.mirrors.state i hi]
  exact code_inj (b := .ready)

/-! ## Changes -/

/-- A change of memory after which every READY task is as it was, except for
`old`, which has left a frame of its own behind. -/
structure Change (m m' : Machine) (ts : List Word) (old : Word) : Prop where
  heap : m'.heap = { m.heap with mem := m'.mem }
  list : m'.taskList = m.taskList
  nextPid : m'.nextPid = m.nextPid
  managed : ∀ x, Managed m.heap (live m.mem ts) x → m'.mem x = m.mem x
  base : ∀ t ∈ ts, stackBase m'.mem t = stackBase m.mem t
  pid : ∀ t ∈ ts, pid m'.mem t = pid m.mem t
  next : ∀ t ∈ ts, next m'.mem t = next m.mem t
  frames : ∀ t ∈ ts, state m'.mem t = taskReady →
    (state m.mem t = taskReady ∧ SameFrame m.mem m'.mem t) ∨
    (t = old ∧ (∃ k, Resumes m'.mem t k) ∧ ∀ x, InFrame m'.mem t x → ¬ Private m ts x)

/-- A suspended task that is still READY has been left alone. -/
theorem Change.sameFrame {old : Word} (hc : Change m m' ts old) (ht : t ∈ ts) (hne : t ≠ old)
    (hready : state m'.mem t = taskReady) : SameFrame m.mem m'.mem t := by
  rcases hc.frames t ht hready with ⟨-, hsame⟩ | ⟨heq, -⟩
  · exact hsame
  · exact absurd heq hne

theorem Change.sound {old : Word} (hc : Change m m' ts old) (h : Kept m ts s c) :
    live m'.mem ts = live m.mem ts ∧ Sound m'.heap (live m.mem ts) ∧
      (∀ p ∈ live m.mem ts, payloadSize m'.heap p = payloadSize m.heap p) ∧
      ∀ x, Managed m'.heap (live m.mem ts) x → Managed m.heap (live m.mem ts) x := by
  obtain ⟨hsound, hsizes⟩ := h.sound.keep hc.managed
  rw [← hc.heap] at hsound hsizes
  refine ⟨live_congr hc.base, hsound, hsizes, ?_⟩
  rintro x ⟨hlow, hhigh, hout⟩
  exact ⟨hlow, hhigh, fun p hp => by rw [← hsizes p hp]; exact hout p hp⟩

theorem Kept.change {old : Word} {c' : Nat} (h : Kept m ts s c) (hc : Change m m' ts old)
    (hring : Ring s' ts.length c') (hcurrent : m'.currentTask = ptr ts c')
    (hstate : ∀ i, i < ts.length → state m'.mem (ptr ts i) = code (s'.node i).state) :
    Kept m' ts s' c' := by
  obtain ⟨hlive, hsound, hsizes, hmanaged⟩ := hc.sound h
  constructor
  case mirrors =>
    have hmir := h.mirrors
    refine ⟨hring.toLinked, hmir.nodup, ?_, hcurrent, hstate, fun i hi => ?_, fun i hi => ?_, ?_⟩
    · rw [hc.list, hmir.list]
    · rw [hc.pid _ (ptr_mem hi), hmir.pid i hi, hring.pid i hi, hmir.linked.pid i hi]
    · rw [hc.next _ (ptr_mem hi), hmir.next i hi, hring.next i hi, hmir.linked.next i hi]
    · rw [hc.nextPid, hmir.nextPid, hring.nextPid, hmir.linked.nextPid]
  case ring => exact hring
  case sound =>
    rw [hlive]
    exact hsound
  case record =>
    intro t ht
    rw [hsizes t (mem_live ht)]
    exact h.record t ht
  case stack =>
    intro t ht
    rw [hc.base t (List.mem_of_mem_tail ht),
      hsizes _ (List.mem_append_right _ (List.mem_map_of_mem ht))]
    exact h.stack t ht
  case resumes =>
    intro t ht hready
    rcases hc.frames t ht hready with ⟨hready', hsame⟩ | ⟨-, hk, -⟩
    · obtain ⟨k, hk⟩ := h.resumes t ht hready'
      exact ⟨k, hsame.resumes hk⟩
    · exact hk
  case unmanaged =>
    intro t ht hready x hx hx'
    rw [hlive] at hx'
    rcases hc.frames t ht hready with ⟨hready', hsame⟩ | ⟨-, -, hown⟩
    · rw [InFrame, hsame.rsp] at hx
      exact h.unmanaged t ht hready' x hx (hmanaged x hx')
    · exact hown x hx (.heap (hmanaged x hx'))
  case unrecorded =>
    intro t ht hready u hu x hx hx'
    rcases hc.frames t ht hready with ⟨hready', hsame⟩ | ⟨-, -, hown⟩
    · rw [InFrame, hsame.rsp] at hx
      exact h.unrecorded t ht hready' u hu x hx hx'
    · exact hown x hx (.record hu hx')
  case apart =>
    intro t ht hready u hu hready' hne x hx hx'
    rcases hc.frames t ht hready with ⟨hold, hsame⟩ | ⟨heq, -, hown⟩
    · rcases hc.frames u hu hready' with ⟨hold', hsame'⟩ | ⟨heq', -, hown'⟩
      · rw [InFrame, hsame.rsp] at hx
        rw [InFrame, hsame'.rsp] at hx'
        exact h.apart t ht hold u hu hold' hne x hx hx'
      · rw [InFrame, hsame.rsp] at hx
        exact hown' x hx' (.frame ht hold hx)
    · rcases hc.frames u hu hready' with ⟨hold', hsame'⟩ | ⟨heq', -, -⟩
      · rw [InFrame, hsame'.rsp] at hx'
        exact hown x hx (.frame hu hold' hx')
      · exact hne (heq.trans heq'.symm)

/-! ## The running task works -/

theorem Kept.work_change (cpu : Cpu Reg) (h : Kept m ts s c)
    (hm : ∀ x, Private m ts x → mem x = m.mem x) :
    Change m { m.setMem mem with cpu := cpu } ts m.currentTask ∧
      ∀ t ∈ ts, state mem t = state m.mem t := by
  have hrecord : ∀ t ∈ ts, ∀ x, t.toNat ≤ x → x < t.toNat + 32 → mem x = m.mem x :=
    fun t ht x hlow hhigh => hm x (.record ht ⟨hlow, hhigh⟩)
  have hstate : ∀ t ∈ ts, state mem t = state m.mem t :=
    fun t ht => state_congr (h.fits ht) fun x _ _ => hrecord t ht x (by omega) (by omega)
  refine ⟨?_, hstate⟩
  constructor
  case heap => rfl
  case list => rfl
  case nextPid => rfl
  case managed => exact fun x hx => hm x (.heap hx)
  case base =>
    exact fun t ht => stackBase_congr (h.fits ht) fun x _ _ => hrecord t ht x (by omega) (by omega)
  case pid =>
    exact fun t ht => pid_congr (h.fits ht) fun x _ _ => hrecord t ht x (by omega) (by omega)
  case next =>
    exact fun t ht => next_congr (h.fits ht) fun x _ _ => hrecord t ht x (by omega) (by omega)
  case frames =>
    intro t ht hready
    have hready' := (hstate t ht).symm.trans hready
    exact Or.inl ⟨hready', rsp_congr fun x hlow hhigh => hrecord t ht x hlow (by omega),
      fun x hx => hm x (.frame ht hready' hx)⟩

/-! ## A switch -/

/-- The two stores before a switch to `t`: the current task is put into state `v`. -/
def setStates (m : Machine) (t : Word) (v : BitVec 32) : Mem :=
  setState (setState m.mem m.currentTask v) t taskRunning

/-- The current task has put itself into state `v`, and switches to `t`. -/
def leaveTo (m : Machine) (t : Word) (v : BitVec 32) (ret : Word) : Machine :=
  callSwitchContext { m.setMem (setStates m t v) with currentTask := t } m.currentTask
    (rsp (setStates m t v) t) ret

theorem Kept.current_mem (h : Kept m ts s c) : m.currentTask ∈ ts := by
  rw [h.mirrors.current]
  exact ptr_mem h.ring.lt

/-- The stores touch the two state fields only. -/
structure Marked (m : Machine) (ts : List Word) (t : Word) (v : BitVec 32) (mem : Mem) : Prop where
  state : ∀ u ∈ ts, state mem u =
    if u = t then taskRunning else if u = m.currentTask then v else state m.mem u
  record : ∀ u ∈ ts, ∀ x, InRecord u x → ¬ (u.toNat + 20 ≤ x ∧ x < u.toNat + 24) →
    mem x = m.mem x
  outside : ∀ x, ¬ InRecord t x → ¬ InRecord m.currentTask x → mem x = m.mem x

theorem Kept.setStates {v : BitVec 32} (h : Kept m ts s c) (ht : t ∈ ts) :
    Marked m ts t v (setStates m t v) := by
  have hcur := h.current_mem
  have hfits := fun u (hu : u ∈ ts) => h.fits hu
  have hfit := hfits t ht
  have hfitCur := hfits _ hcur
  have hbytes : ∀ x, ¬ (t.toNat + 20 ≤ x ∧ x < t.toNat + 24) →
      ¬ (m.currentTask.toNat + 20 ≤ x ∧ x < m.currentTask.toNat + 24) →
      Context.setStates m t v x = m.mem x := by
    intro x hx hx'
    rw [Context.setStates, setState_outside hfit (by omega), setState_outside hfitCur (by omega)]
  constructor
  case state =>
    intro u hu
    by_cases hut : u = t
    · rw [if_pos hut, hut, Context.setStates, state_setState]
    · have hfar := h.records_apart hu ht hut
      have hskip : Context.state (Context.setStates m t v) u =
          Context.state (setState m.mem m.currentTask v) u :=
        state_congr (hfits u hu) fun x _ _ => setState_outside hfit (by omega)
      rw [if_neg hut, hskip]
      by_cases huc : u = m.currentTask
      · rw [if_pos huc, huc, state_setState]
      · have hfar' := h.records_apart hu hcur huc
        rw [if_neg huc]
        exact state_congr (hfits u hu) fun x _ _ => setState_outside hfitCur (by omega)
  case record =>
    rintro u hu x ⟨hlow, hhigh⟩ hx
    refine hbytes x ?_ ?_
    · by_cases hut : u = t
      · rw [← hut]
        exact hx
      · have hfar := h.records_apart hu ht hut
        omega
    · by_cases huc : u = m.currentTask
      · rw [← huc]
        exact hx
      · have hfar := h.records_apart hu hcur huc
        omega
  case outside =>
    intro x hx hx'
    unfold InRecord at hx hx'
    exact hbytes x (by omega) (by omega)

/-- Frames are in no record. -/
theorem Kept.marked_frame {v : BitVec 32} (h : Kept m ts s c) (hm : Marked m ts t v mem)
    (ht : t ∈ ts) (hu : u ∈ ts) (hready : state m.mem u = taskReady) : SameFrame m.mem mem u := by
  refine ⟨rsp_congr fun x hlow hhigh => hm.record u hu x ⟨hlow, by omega⟩ (by omega), ?_⟩
  intro x hx
  exact hm.outside x (h.unrecorded u hu hready t ht x hx)
    (h.unrecorded u hu hready _ h.current_mem x hx)

/-- The pushes are in nothing that is private. -/
theorem Room.push (hroom : Room m ts) (hx : Private m ts x) :
    x < m.cpu.sp.toNat - 64 ∨ m.cpu.sp.toNat + 8 ≤ x := by
  by_contra hin
  exact hroom.own x (by omega) (by omega) hx

theorem Kept.switched {v : BitVec 32} (h : Kept m ts s c) (ret : Word) (hroom : Room m ts)
    (ht : t ∈ ts) (hready : state m.mem t = taskReady) (hm : Marked m ts t v (Context.setStates m t v))
    (hk : Resumes m.mem t k) :
    Switched { m.setMem (Context.setStates m t v) with currentTask := t } m.currentTask k ret
      (leaveTo m t v ret) := by
  have hcur := h.current_mem
  have hlow := hroom.low
  have hsame := h.marked_frame hm ht ht hready
  have hrsp := hsame.rsp
  generalize hmem : Context.setStates m t v = mem at *
  rw [leaveTo, hmem]
  refine callSwitchContext_spec (hsame.resumes hk) hlow ?_ ?_ ?_
  · have hfar := apart_of_forall (a := m.currentTask.toNat) (n := 8) (b := m.cpu.sp.toNat - 64)
      (k := 64) (by omega) (by omega) fun x h₁ h₂ h₃ => by
        have := hroom.push (.record hcur ⟨h₁, by omega⟩)
        omega
    show m.currentTask.toNat + 8 ≤ m.cpu.sp.toNat - 64 ∨ m.cpu.sp.toNat ≤ m.currentTask.toNat
    omega
  · have hfar := apart_of_forall (a := (rsp m.mem t).toNat) (n := 64) (b := m.cpu.sp.toNat - 64)
      (k := 64) (by omega) (by omega) fun x h₁ h₂ h₃ => by
        have := hroom.push (.frame ht hready ⟨h₁, by omega⟩)
        omega
    show (rsp mem t).toNat + 64 ≤ m.cpu.sp.toNat - 64 ∨ m.cpu.sp.toNat ≤ (rsp mem t).toNat
    rw [hrsp]
    omega
  · show (rsp mem t).toNat + 64 ≤ m.currentTask.toNat ∨ m.currentTask.toNat + 8 ≤ (rsp mem t).toNat
    rw [hrsp]
    exact apart_of_forall (by omega) (by omega) fun x h₁ h₂ h₃ =>
      h.unrecorded t ht hready _ hcur x ⟨h₁, by omega⟩ ⟨h₃.1, by omega⟩

/-- What `leaveTo` has done. -/
structure Leaves (m : Machine) (ts : List Word) (t : Word) (v : BitVec 32) (ret : Word)
    (m' : Machine) : Prop where
  change : Change m m' ts m.currentTask
  current : m'.currentTask = t
  state : ∀ u ∈ ts, state m'.mem u =
    if u = t then taskRunning else if u = m.currentTask then v else state m.mem u
  saved : Resumes m'.mem m.currentTask { m.cpu with ip := ret }
  restored : ∀ k, Resumes m.mem t k → Restored k m'.cpu
  frame : ∀ x, InFrame m.mem t x → m'.mem x = m.mem x

theorem Kept.leaveTo {v : BitVec 32} {ret : Word} (h : Kept m ts s c) (hroom : Room m ts)
    (ht : t ∈ ts) (hready : Context.state m.mem t = taskReady) (hne : t ≠ m.currentTask) :
    Leaves m ts t v ret (leaveTo m t v ret) := by
  have hcur := h.current_mem
  have hm := h.setStates (v := v) ht
  have hswitch := fun k hk => h.switched (k := k) ret hroom ht hready hm hk
  generalize hm' : Context.leaveTo m t v ret = m' at hswitch
  generalize hmem : Context.setStates m t v = mem at hm hswitch
  obtain ⟨k, hk⟩ := h.resumes t ht hready
  have hsw := hswitch k hk
  have hkept : ∀ x, Private m ts x → (x < m.currentTask.toNat ∨ m.currentTask.toNat + 8 ≤ x) →
      m'.mem x = mem x := fun x hx hx' =>
    hsw.kept x hx' ((hroom.push hx).imp_right fun hhigh =>
      show m.cpu.sp.toNat ≤ x from (Nat.le_add_right _ 8).trans hhigh)
  have hrecord : ∀ u ∈ ts, ∀ x, InRecord u x → (u = m.currentTask → u.toNat + 8 ≤ x) →
      m'.mem x = mem x := by
    rintro u hu x ⟨h₁, h₂⟩ hcase
    refine hkept x (.record hu ⟨h₁, h₂⟩) ?_
    by_cases huc : u = m.currentTask
    · rw [← huc]
      exact Or.inr (hcase huc)
    · have hfar := h.records_apart hu hcur huc
      omega
  have hfields : ∀ u ∈ ts, ∀ x, u.toNat + 8 ≤ x → x < u.toNat + 32 →
      ¬ (u.toNat + 20 ≤ x ∧ x < u.toNat + 24) → m'.mem x = m.mem x := by
    intro u hu x h₁ h₂ h₃
    exact (hrecord u hu x ⟨by omega, h₂⟩ fun _ => h₁).trans (hm.record u hu x ⟨by omega, h₂⟩ h₃)
  have hstate : ∀ u ∈ ts, Context.state m'.mem u = Context.state mem u := fun u hu =>
    state_congr (h.fits hu) fun x _ _ => hrecord u hu x ⟨by omega, by omega⟩ (by omega)
  constructor
  case change =>
    constructor
    case heap =>
      rw [hsw.rest]
      rfl
    case list =>
      rw [hsw.rest]
      rfl
    case nextPid =>
      rw [hsw.rest]
      rfl
    case managed =>
      intro x hx
      have h₁ : ¬ InRecord t x := fun hin => h.not_managed ht hin hx
      have h₂ : ¬ InRecord m.currentTask x := fun hin => h.not_managed hcur hin hx
      refine (hkept x (.heap hx) ?_).trans (hm.outside x h₁ h₂)
      unfold InRecord at h₂
      omega
    case base =>
      exact fun u hu => stackBase_congr (h.fits hu) fun x _ _ =>
        hfields u hu x (by omega) (by omega) (by omega)
    case pid =>
      exact fun u hu => pid_congr (h.fits hu) fun x _ _ =>
        hfields u hu x (by omega) (by omega) (by omega)
    case next =>
      exact fun u hu => next_congr (h.fits hu) fun x _ _ =>
        hfields u hu x (by omega) (by omega) (by omega)
    case frames =>
      intro u hu hu'
      rw [hstate u hu, hm.state u hu] at hu'
      by_cases huc : u = m.currentTask
      · subst huc
        refine Or.inr ⟨rfl, ⟨_, hsw.saved⟩, fun x hx => ?_⟩
        have hsp : (rsp m'.mem m.currentTask).toNat = m.cpu.sp.toNat - 64 := hsw.rsp
        have hlow := hroom.low
        obtain ⟨h₁, h₂⟩ := hx
        exact hroom.own x (by omega) (by omega)
      · have hut : u ≠ t := by
          rintro rfl
          rw [if_pos rfl] at hu'
          exact absurd hu' (by decide)
        rw [if_neg hut, if_neg huc] at hu'
        have hsame := h.marked_frame hm ht hu hu'
        refine Or.inl ⟨hu', SameFrame.trans hsame ⟨?_, fun x hx => ?_⟩⟩
        · exact rsp_congr fun x h₁ h₂ =>
            hrecord u hu x ⟨h₁, by omega⟩ fun heq => absurd heq huc
        · rw [InFrame, hsame.rsp] at hx
          have h₂ := h.unrecorded u hu hu' _ hcur x hx
          unfold InRecord at h₂
          exact hkept x (.frame hu hu' hx) (by omega)
  case current =>
    rw [hsw.rest]
    rfl
  case state => exact fun u hu => (hstate u hu).trans (hm.state u hu)
  case saved => exact hsw.saved
  case restored => exact fun k hk => (hswitch k hk).restored
  case frame =>
    intro x hx
    have hout := h.unrecorded t ht hready _ hcur x hx
    unfold InRecord at hout
    exact (hkept x (.frame ht hready hx) (by omega)).trans
      ((h.marked_frame hm ht ht hready).bytes x hx)

end Kept

end VectorForth.Context
