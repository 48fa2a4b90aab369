import LuaIde.LineText

/-! `PDAThread`: the suspend state of the IDE, driven by the lines of the event socket. -/
namespace LuaIde

/-- The fields of `PDAThread` that events change. A breakpoint is known by a number. -/
structure PDAThread where
  fBreakpoint : Option ℕ
  fStepping : Bool
  fSuspended : Bool
  fErrorEvent : Option Text
deriving DecidableEq

namespace PDAThread

def initial : PDAThread := ⟨none, false, false, none⟩

def setStepping (t : PDAThread) (stepping : Bool) : PDAThread := { t with fStepping := stepping }

def setSuspended (t : PDAThread) (suspended : Bool) : PDAThread :=
  { t with fSuspended := suspended }

def setError (t : PDAThread) (event : Option Text) : PDAThread := { t with fErrorEvent := event }

/-- `resumed(detail)`, for all of its details. -/
def resumed (t : PDAThread) : PDAThread := t.setError none

/-- `suspendedBy`, called by the listening breakpoints. -/
def suspendedBy (t : PDAThread) (breakpoint : ℕ) : PDAThread :=
  { t with fBreakpoint := some breakpoint }

/-- `PDAThread.handleEvent`. -/
def handleEvent (t : PDAThread) (event : Text) : PDAThread :=
  let t := { t with fBreakpoint := none }.setStepping false
  if (txt "resumed").isPrefixOf event then
    let t := t.setSuspended false
    if (txt "step").isSuffixOf event then (t.setStepping true).resumed
    else if (txt "client").isSuffixOf event then t.resumed
    else if (txt "drop").isSuffixOf event then t.resumed
    else t
  else if (txt "suspended").isPrefixOf event then
    -- the suffix only decides which debug event is fired
    t.setSuspended true
  else if event = txt "started" then t
  else t.setError (some event)

/-- What an event says about the suspend state, if it does. -/
def verdict (event : Text) : Option Bool :=
  if (txt "resumed").isPrefixOf event then some false
  else if (txt "suspended").isPrefixOf event then some true
  else none

theorem handleEvent_fSuspended (t : PDAThread) (event : Text) :
    (t.handleEvent event).fSuspended = (verdict event).getD t.fSuspended := by
  unfold handleEvent verdict
  split_ifs <;> rfl

end PDAThread

end LuaIde
