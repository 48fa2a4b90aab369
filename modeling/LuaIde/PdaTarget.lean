import LuaIde.CheckedFold
import LuaIde.PdaModel

/-! The two queries of `PDADebugTarget`, over the replies they get. -/
namespace LuaIde

open Delimited CheckedFold

structure PDAStackValue where
  fValue : Text
  fIndex : ℕ
deriving DecidableEq

namespace PDADebugTarget

/-- `PDADebugTarget.getDataStack`: top down. -/
def getDataStack (reply : Reply) : Except JavaError (List PDAStackValue) :=
  match reply with
  | .failed => .error .debugException
  | .eof => .ok []
  | .line dataStack =>
    if 0 < dataStack.length then
      let values := split '|' dataStack
      (List.range values.length).mapM (fun i => do
        let value ← arrayAt values (values.length - i - 1)
        return { fValue := value, fIndex := i })
    else .ok []

/-- A variable of the global list, with its value where the elements of a table have it. -/
def globalOf (s : Text) : Except JavaError Variable := do
  let nameVal := split '=' s
  let name ← arrayAt nameVal 0
  let val ← arrayAt nameVal 1
  return { (PDAVariable.new name : Variable) with val := some val, global := true }

/-- `PDADebugTarget.getGlobals`. The frame it makes for the variables is built like any
other and sends the request `again`. -/
def getGlobals (lastSegment : Text → Option Text) (reply again : Reply) :
    Except JavaError (List Variable) :=
  match reply with
  | .failed => .error .debugException
  | .eof => .error .nullPointer
  | .line data => do
    let strings := split '|' data
    let _ ← PDAStackFrame.init lastSegment (initGlobals again) 0
      (txt "dummyfile|1|dummyfunctionname|dummyvarName")
    strings.mapM globalOf

/-- The values are numbered from the last piece of the reply to the first. -/
def numbered (values : List Text) : List PDAStackValue :=
  values.reverse.mapIdx (fun i value => { fValue := value, fIndex := i })

@[simp] theorem length_numbered (values : List Text) :
    (numbered values).length = values.length := by
  rw [numbered, List.length_mapIdx, List.length_reverse]

theorem getDataStack_line (s : Text) :
    getDataStack (.line s) = .ok (if s = [] then [] else numbered (split '|' s)) := by
  by_cases hs : s = []
  · simp [getDataStack, hs]
  · have hpos : 0 < s.length := List.length_pos_iff.mpr hs
    rw [getDataStack, if_pos hpos, if_neg hs, mapM_eq_ok, List.forall₂_iff_get]
    refine ⟨by simp, fun i hi hi' => ?_⟩
    have hlen : i < (split '|' s).length := by simpa using hi
    have hlt : (split '|' s).length - 1 - i < (split '|' s).length := by omega
    have hget : arrayAt (split '|' s) ((split '|' s).length - i - 1) =
        .ok (split '|' s)[(split '|' s).length - 1 - i] := by
      rw [arrayAt, Nat.sub_right_comm, List.getElem?_eq_getElem hlt]
    have hr : (numbered (split '|' s)).get ⟨i, hi'⟩ =
        ⟨(split '|' s)[(split '|' s).length - 1 - i], i⟩ := by
      simp only [numbered, List.get_eq_getElem, List.getElem_mapIdx, List.getElem_reverse]
    rw [hr, List.get_eq_getElem, List.getElem_range, hget]
    rfl

theorem numbered_inj {as bs : List Text} : numbered as = numbered bs ↔ as = bs := by
  have hvalues (values : List Text) :
      (numbered values).map PDAStackValue.fValue = values.reverse := by
    apply List.ext_getElem
    · simp
    · intro i hi hi'
      simp only [numbered, List.getElem_map, List.getElem_mapIdx]
  constructor
  · intro h
    have hv := congrArg (List.map PDAStackValue.fValue) h
    rw [hvalues, hvalues] at hv
    exact List.reverse_injective hv
  · rintro rfl
    rfl

@[simp] theorem numbered_eq_nil {as : List Text} : numbered as = [] ↔ as = [] := by
  simp [numbered]

end PDADebugTarget

end LuaIde
