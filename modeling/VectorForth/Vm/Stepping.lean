import VectorForth.Lib.Run
import VectorForth.Vm.Structured

/-!
# What one step of the inner interpreter does

One lemma for each kind of cell that `forth_inner` can meet, and for each kind
of word that `forth_execute` can be given. The proofs about runs use these and
never unfold the interpreter.
-/

namespace VectorForth.Forth

open ByteMemory LabelledRun

/-- The machine with the given data, return stack, instruction pointer and C stack. -/
def Machine.conf (m : Machine) (d : Data) (rs : List Cell) (ip : Cell) (frames : List Frame) :
    Machine :=
  { m with vm := ⟨d, rs, ip⟩, frames := frames }

@[simp] theorem Machine.conf_frames (m : Machine) (d : Data) (rs : List Cell) (ip : Cell)
    (frames : List Frame) : (m.conf d rs ip frames).frames = frames := rfl

@[simp] theorem Machine.conf_vm (m : Machine) (d : Data) (rs : List Cell) (ip : Cell)
    (frames : List Frame) : (m.conf d rs ip frames).vm = ⟨d, rs, ip⟩ := rfl

theorem Machine.conf_self (m : Machine) : m.conf m.vm.data m.vm.rs m.vm.ip m.frames = m := rfl

@[simp] theorem Machine.conf_conf (m : Machine) (d d' : Data) (rs rs' : List Cell) (ip ip' : Cell)
    (frames frames' : List Frame) :
    (m.conf d rs ip frames).conf d' rs' ip' frames' = m.conf d' rs' ip' frames' := rfl

/-! ## Addresses that cannot be confused -/

section Addresses

variable (img : Image)

theorem Image.addr_inj {f g : CFun} (h : img.addr f = img.addr g) : f = g := by
  have hf := img.decode_addr f
  rw [h, img.decode_addr] at hf
  exact (Option.some.inj hf).symm

theorem Image.addr_ne_sentinel (f : CFun) : img.addr f ≠ sentinelExit := by
  intro h
  have hrange := img.addr_range f
  rw [h] at hrange
  exact absurd hrange.1 (by decide)

theorem Image.addr_not_inDict (f : CFun) : ¬ InDict (img.addr f) := by
  intro h
  have hrange := img.addr_range f
  have hlow : dictVirtBase ≤ (img.addr f).toNat := h.1
  rw [dictVirtBase] at hlow
  omega

theorem InDict.ne_addr {e : Cell} (h : InDict e) (f : CFun) : e ≠ img.addr f := by
  rintro rfl
  exact img.addr_not_inDict f h

theorem InDict.ne_sentinel {e : Cell} (h : InDict e) : e ≠ sentinelExit := by
  rintro rfl
  exact absurd h (by decide)

theorem InDict.ne_zero {e : Cell} (h : InDict e) : e ≠ 0#64 := by
  rintro rfl
  exact absurd h (by decide)

end Addresses

/-! ## Calling a word that is not a colon definition -/

section Calls

variable {img : Image} {m : Machine} {d : Data} {rs : List Cell} {ip : Cell} {F : List Frame}
  {e : Cell}

theorem callCode_function {f : CFun} (hv : f ≠ .doVariable) (hc : f ≠ .doConstant) :
    callCode img (img.addr f) e m = callNative img f m := by
  rw [callCode, if_neg (fun h => hv (img.addr_inj h)), if_neg (fun h => hc (img.addr_inj h)),
    img.decode_addr]

theorem callCode_native {f : CFun} {w : NativeM Unit} {d' : Data} (hf : dataWord img f = some w)
    (hrun : w.run d = some ((), d')) :
    callCode img (img.addr f) e (m.conf d rs ip F) = some (m.conf d' rs ip F) := by
  have hv : f ≠ .doVariable := by rintro rfl; cases hf
  have hc : f ≠ .doConstant := by rintro rfl; cases hf
  have hrun' : w.run (m.conf d rs ip F).vm.data = some ((), d') := hrun
  rw [callCode_function hv hc]
  unfold callNative
  simp only [hf, hrun', Option.map_some]
  rfl

theorem callCode_vmWord {f : CFun} {w : Vm → Vm} (hf : vmWord f = some w) :
    callCode img (img.addr f) e m = some { m with vm := w m.vm } := by
  have hv : f ≠ .doVariable := by rintro rfl; cases hf
  have hc : f ≠ .doConstant := by rintro rfl; cases hf
  have hdata : dataWord img f = none := by
    cases f <;> first | rfl | cases hf
  rw [callCode_function hv hc]
  unfold callNative
  simp only [hdata, hf]

theorem callCode_execute {xt : Cell} {ds : List Cell} (hds : d.ds = xt :: ds) :
    callCode img (img.addr .wExecute) e (m.conf d rs ip F) =
      some (m.conf { d with ds := ds } rs ip (.execute xt :: F)) := by
  have hdata : dataWord img .wExecute = none := rfl
  have hvm : vmWord .wExecute = none := rfl
  rw [callCode_function (by decide) (by decide)]
  unfold callNative
  simp only [hdata, hvm, wExecute, Machine.conf, Machine.setData, Machine.push, Data.dsPop, hds]

theorem callCode_variable :
    callCode img (img.addr .doVariable) e (m.conf d rs ip F) =
      some (m.conf (d.dsPush (dictGetParamField d.mem e)) rs ip F) := by
  rw [callCode, if_pos rfl]
  rfl

theorem callCode_constant :
    callCode img (img.addr .doConstant) e (m.conf d rs ip F) =
      some (m.conf (d.dsPush (cellAt d.mem (dictGetParamField d.mem e))) rs ip F) := by
  rw [callCode, if_neg (fun h => by cases img.addr_inj h), if_pos rfl]
  rfl

theorem callCode_yield : callCode img (img.addr .wYield) e m = some (yield m) := by
  have hdata : dataWord img .wYield = none := rfl
  have hvm : vmWord .wYield = none := rfl
  rw [callCode_function (by decide) (by decide)]
  unfold callNative
  simp only [hdata, hvm]

/-- Without another task that is ready, `yield` returns at once. -/
theorem yield_of_stay (h : nextTask m.vm.data = m.vm.data.current) : yield m = m :=
  if_neg (not_not.mpr h)

/-! ## `forth_execute` -/

theorem step_execute_colon (hcode : cellAt d.mem (dictGetCodeField d.mem e) = img.addr .doColon)
    (hroom : rs.length < returnStackSize) :
    step img (m.conf d rs ip (.execute e :: F)) =
      some (m.conf d (ip :: rs) (dictGetParamField d.mem e) (.inner :: F)) := by
  have hpush : ¬ rs.length ≥ returnStackSize := by omega
  simp [step, forthExecute, Machine.conf, hcode, enterColon, Vm.rsPush, hpush, Machine.push]

theorem step_execute_other {code : Cell} (hcode : cellAt d.mem (dictGetCodeField d.mem e) = code)
    (hne : code ≠ img.addr .doColon) :
    step img (m.conf d rs ip (.execute e :: F)) =
      callCode img code e (m.conf d rs ip F) := by
  simp [step, forthExecute, Machine.conf, hcode, hne]

/-! ## `forth_inner` -/

theorem step_inner_colon (hcell : cellAt d.mem ip = e) (hin : InDict e)
    (hcode : cellAt d.mem (dictGetCodeField d.mem e) = img.addr .doColon)
    (hroom : rs.length < returnStackSize) :
    step img (m.conf d rs ip (.inner :: F)) =
      some (m.conf d ((ip + 8#64) :: rs) (dictGetParamField d.mem e) (.inner :: F)) := by
  have hpush : ¬ rs.length ≥ returnStackSize := by omega
  simp [step, forthInner, Machine.conf, Vm.ipFetchAdvance, hcell, hin.ne_sentinel,
    hin.ne_addr img, hin, hcode, enterColon, Vm.rsPush, hpush]

theorem step_inner_other {code : Cell} (hcell : cellAt d.mem ip = e) (hin : InDict e)
    (hcode : cellAt d.mem (dictGetCodeField d.mem e) = code) (hne : code ≠ img.addr .doColon) :
    step img (m.conf d rs ip (.inner :: F)) =
      callCode img code e (m.conf d rs (ip + 8#64) (.inner :: F)) := by
  simp [step, forthInner, Machine.conf, Vm.ipFetchAdvance, hcell, hin.ne_sentinel,
    hin.ne_addr img, hin, hcode, hne]

theorem step_inner_literal (hcell : cellAt d.mem ip = img.addr .doLiteral) :
    step img (m.conf d rs ip (.inner :: F)) =
      some (m.conf (d.dsPush (cellAt d.mem (ip + 8#64))) rs (ip + 8#64 + 8#64) (.inner :: F)) := by
  simp [step, forthInner, Machine.conf, Vm.ipFetchAdvance, hcell, img.addr_ne_sentinel]

/-- The exit of a word called from another body. -/
theorem step_inner_exit (hcell : cellAt d.mem ip = sentinelExit) {ret : Cell} (hret : ret ≠ 0#64) :
    step img (m.conf d (ret :: rs) ip (.inner :: F)) =
      some (m.conf d rs ret (.inner :: F)) := by
  simp [step, forthInner, Machine.conf, Vm.ipFetchAdvance, hcell, Vm.rsPop, hret]

/-- The exit of a word called with `ip = 0`: the loop returns. -/
theorem step_inner_return (hcell : cellAt d.mem ip = sentinelExit) :
    step img (m.conf d (0#64 :: rs) ip (.inner :: F)) = some (m.conf d rs 0#64 F) := by
  simp [step, forthInner, Machine.conf, Vm.ipFetchAdvance, hcell, Vm.rsPop]

/-- The address of a C function is no word address: the loop gives up. -/
theorem step_inner_raw {f : CFun} (hcell : cellAt d.mem ip = img.addr f) (hf : f ≠ .doLiteral) :
    step img (m.conf d rs ip (.inner :: F)) =
      some (m.conf (d.puts (text " Invalid word address!\n")) rs (ip + 8#64) F) := by
  have hlit : img.addr f ≠ img.addr .doLiteral := fun h => hf (img.addr_inj h)
  simp [step, forthInner, Machine.conf, Vm.ipFetchAdvance, hcell, img.addr_ne_sentinel,
    img.addr_not_inDict, hlit, Machine.puts, Machine.setData]

end Calls

end VectorForth.Forth
