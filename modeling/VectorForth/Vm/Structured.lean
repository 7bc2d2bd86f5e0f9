import VectorForth.Vm.Code

/-!
# Structured execution

The big-step meaning of a colon body, written without cells, branches or an
instruction pointer. A word sees the data and its own part of the return
stack; what lies below belongs to its callers. `Exec` has no rule for what
leaves this discipline: popping a caller's return address, storing into the
words themselves (`P`), running out of return-stack slots, an underflow at a
test, or `BEGIN … AGAIN`, which never ends.

Two flags record what an execution does: whether it meets a control construct,
and whether it runs a colon word through `EXECUTE`.
-/

namespace VectorForth.Forth

open ByteMemory

structure Local where
  data : Data
  rs : List Cell

/-- A body, the body of a `DO … LOOP` with index and limit in place, or one word. -/
inductive Code
  | body (b : Body)
  | loop (b : Body)
  | call (entry : Cell)

/-- The words for the return stack, with the items each takes from it. -/
def rsNeed : CFun → Option Nat
  | .wToR => some 0
  | .wFromR => some 1
  | .wRFetch => some 1
  | .wI => some 1
  | _ => none

def Meaning.isColon : Meaning → Bool
  | .colon _ => true
  | _ => false

section

variable (img : Image) (words : Words) (P : Set Nat)

/-- `Exec cap control reenter code s t`: with `cap` return-stack slots for the
word and its callees, `code` leads from `s` to `t`. -/
inductive Exec : Nat → Bool → Bool → Code → Local → Local → Prop
  | nil {cap : Nat} {s : Local} : Exec cap false false (.body .nil) s s
  | lit {cap : Nat} {c r : Bool} {v : Cell} {rest : Body} {s t : Local} :
      Exec cap c r (.body rest) ⟨s.data.dsPush v, s.rs⟩ t →
      Exec cap c r (.body (.lit v rest)) s t
  | word {cap : Nat} {c₁ r₁ c₂ r₂ : Bool} {e : Cell} {rest : Body} {s s' t : Local} :
      Exec cap c₁ r₁ (.call e) s s' → Exec cap c₂ r₂ (.body rest) s' t →
      Exec cap (c₁ || c₂) (r₁ || r₂) (.body (.word e rest)) s t
  | ifYes {cap : Nat} {c₁ r₁ c₂ r₂ : Bool} {v : Cell} {ds : List Cell} {yes rest : Body}
      {s s' t : Local} (hds : s.data.ds = v :: ds) (hv : v ≠ 0#64) :
      Exec cap c₁ r₁ (.body yes) ⟨{ s.data with ds := ds }, s.rs⟩ s' →
      Exec cap c₂ r₂ (.body rest) s' t →
      Exec cap true (r₁ || r₂) (.body (.ifThen yes rest)) s t
  | ifNo {cap : Nat} {c r : Bool} {ds : List Cell} {yes rest : Body} {s t : Local}
      (hds : s.data.ds = 0#64 :: ds) :
      Exec cap c r (.body rest) ⟨{ s.data with ds := ds }, s.rs⟩ t →
      Exec cap true r (.body (.ifThen yes rest)) s t
  | elseYes {cap : Nat} {c₁ r₁ c₂ r₂ : Bool} {v : Cell} {ds : List Cell} {yes no rest : Body}
      {s s' t : Local} (hds : s.data.ds = v :: ds) (hv : v ≠ 0#64) :
      Exec cap c₁ r₁ (.body yes) ⟨{ s.data with ds := ds }, s.rs⟩ s' →
      Exec cap c₂ r₂ (.body rest) s' t →
      Exec cap true (r₁ || r₂) (.body (.ifElse yes no rest)) s t
  | elseNo {cap : Nat} {c₁ r₁ c₂ r₂ : Bool} {ds : List Cell} {yes no rest : Body}
      {s s' t : Local} (hds : s.data.ds = 0#64 :: ds) :
      Exec cap c₁ r₁ (.body no) ⟨{ s.data with ds := ds }, s.rs⟩ s' →
      Exec cap c₂ r₂ (.body rest) s' t →
      Exec cap true (r₁ || r₂) (.body (.ifElse yes no rest)) s t
  | untilDone {cap : Nat} {c₁ r₁ c₂ r₂ : Bool} {v : Cell} {ds : List Cell} {body rest : Body}
      {s s' t : Local} :
      Exec cap c₁ r₁ (.body body) s s' → s'.data.ds = v :: ds → v ≠ 0#64 →
      Exec cap c₂ r₂ (.body rest) ⟨{ s'.data with ds := ds }, s'.rs⟩ t →
      Exec cap true (r₁ || r₂) (.body (.untilLoop body rest)) s t
  | untilAgain {cap : Nat} {c₁ r₁ c₂ r₂ : Bool} {ds : List Cell} {body rest : Body}
      {s s' t : Local} :
      Exec cap c₁ r₁ (.body body) s s' → s'.data.ds = 0#64 :: ds →
      Exec cap c₂ r₂ (.body (.untilLoop body rest)) ⟨{ s'.data with ds := ds }, s'.rs⟩ t →
      Exec cap true (r₁ || r₂) (.body (.untilLoop body rest)) s t
  | whileDone {cap : Nat} {c₁ r₁ c₂ r₂ : Bool} {ds : List Cell} {test body rest : Body}
      {s s' t : Local} :
      Exec cap c₁ r₁ (.body test) s s' → s'.data.ds = 0#64 :: ds →
      Exec cap c₂ r₂ (.body rest) ⟨{ s'.data with ds := ds }, s'.rs⟩ t →
      Exec cap true (r₁ || r₂) (.body (.whileLoop test body rest)) s t
  | whileAgain {cap : Nat} {c₁ r₁ c₂ r₂ c₃ r₃ : Bool} {v : Cell} {ds : List Cell}
      {test body rest : Body} {s s' s'' t : Local} :
      Exec cap c₁ r₁ (.body test) s s' → s'.data.ds = v :: ds → v ≠ 0#64 →
      Exec cap c₂ r₂ (.body body) ⟨{ s'.data with ds := ds }, s'.rs⟩ s'' →
      Exec cap c₃ r₃ (.body (.whileLoop test body rest)) s'' t →
      Exec cap true (r₁ || r₂ || r₃) (.body (.whileLoop test body rest)) s t
  | doLoop {cap : Nat} {c₁ r₁ c₂ r₂ : Bool} {i limit : Cell} {ds : List Cell} {body rest : Body}
      {s s' t : Local} (hds : s.data.ds = i :: limit :: ds) (hroom : s.rs.length + 2 ≤ cap) :
      Exec cap c₁ r₁ (.loop body) ⟨{ s.data with ds := ds }, i :: limit :: s.rs⟩ s' →
      Exec cap c₂ r₂ (.body rest) s' t →
      Exec cap true (r₁ || r₂) (.body (.doLoop body rest)) s t
  | loopAgain {cap : Nat} {c₁ r₁ c₂ r₂ : Bool} {i limit : Cell} {rs : List Cell} {body : Body}
      {s s' t : Local} :
      Exec cap c₁ r₁ (.body body) s s' → s'.rs = i :: limit :: rs →
      (i + 1#64).slt limit = true →
      Exec cap c₂ r₂ (.loop body) ⟨s'.data, (i + 1#64) :: limit :: rs⟩ t →
      Exec cap true (r₁ || r₂) (.loop body) s t
  | loopDone {cap : Nat} {c r : Bool} {i limit : Cell} {rs : List Cell} {body : Body}
      {s s' : Local} :
      Exec cap c r (.body body) s s' → s'.rs = i :: limit :: rs →
      (i + 1#64).slt limit = false →
      Exec cap true r (.loop body) s ⟨s'.data, rs⟩
  | native {cap : Nat} {e : Cell} {f : CFun} {w : NativeM Unit} {s : Local} {d : Data}
      (he : words e = some (.native f)) (hf : dataWord img f = some w)
      (hrun : w.run s.data = some ((), d)) (hkeep : Set.EqOn d.mem s.data.mem P) :
      Exec cap false false (.call e) s ⟨d, s.rs⟩
  | rsNative {cap n : Nat} {e : Cell} {f : CFun} {w : Vm → Vm} {s : Local}
      (he : words e = some (.native f)) (hf : vmWord f = some w) (hneed : rsNeed f = some n)
      (hlen : n ≤ s.rs.length) (hroom : (w ⟨s.data, s.rs, 0#64⟩).rs.length ≤ cap) :
      Exec cap false false (.call e) s
        ⟨(w ⟨s.data, s.rs, 0#64⟩).data, (w ⟨s.data, s.rs, 0#64⟩).rs⟩
  | yield {cap : Nat} {e : Cell} {s : Local} (he : words e = some (.native .wYield))
      (hstay : nextTask s.data = s.data.current) : Exec cap false false (.call e) s s
  | var {cap : Nat} {e : Cell} {s : Local} (he : words e = some .var) :
      Exec cap false false (.call e) s
        ⟨s.data.dsPush (dictGetParamField s.data.mem e), s.rs⟩
  | const {cap : Nat} {e : Cell} {s : Local} (he : words e = some .const) :
      Exec cap false false (.call e) s
        ⟨s.data.dsPush (cellAt s.data.mem (dictGetParamField s.data.mem e)), s.rs⟩
  | colon {cap : Nat} {c r : Bool} {e : Cell} {b : Body} {s : Local} {d : Data}
      (he : words e = some (.colon b)) (hroom : s.rs.length < cap) :
      Exec (cap - s.rs.length - 1) c r (.body b) ⟨s.data, []⟩ ⟨d, []⟩ →
      Exec cap c r (.call e) s ⟨d, s.rs⟩
  | execute {cap : Nat} {c r : Bool} {e xt : Cell} {k : Meaning} {ds : List Cell} {s t : Local}
      (he : words e = some (.native .wExecute)) (hds : s.data.ds = xt :: ds)
      (hk : words xt = some k) :
      Exec cap c r (.call xt) ⟨{ s.data with ds := ds }, s.rs⟩ t →
      Exec cap c (k.isColon || r) (.call e) s t

end

end VectorForth.Forth
