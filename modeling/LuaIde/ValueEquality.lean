import LuaIde.EqualsContract
import LuaIde.LineText

/-! `equals` and `hashCode` of `PDAValue` and of its subclass `PDAStackValue`: when the
values that meet in one collection keep the contract of `java.lang.Object`. -/
namespace LuaIde

open EqualsContract Delimited

/-- A Java string: 16-bit units. -/
abbrev JavaString := List (BitVec 16)

/-- The units of a character: one, or a surrogate pair. -/
def utf16 (c : Char) : JavaString :=
  if c.toNat < 0x10000 then [BitVec.ofNat 16 c.toNat]
  else [BitVec.ofNat 16 (0xD800 + (c.toNat - 0x10000) / 0x400),
    BitVec.ofNat 16 (0xDC00 + (c.toNat - 0x10000) % 0x400)]

def javaString (s : Text) : JavaString := s.flatMap utf16

/-- `String.hashCode`. -/
def stringHashCode (s : JavaString) : BitVec 32 :=
  s.foldl (fun h c => 31#32 * h + c.setWidth 32) 0#32

/-- What `equals` and `hashCode` can throw. -/
inductive ObjectError where
  | nullPointer
  | classCast
deriving DecidableEq

/-- The objects of both classes, with the fields that the two methods read. `none` is the
null string. -/
inductive ValueObject where
  | pdaValue (fValue : Option JavaString)
  | pdaStackValue (fValue : Option JavaString) (fIndex : BitVec 32)
deriving DecidableEq

namespace ValueObject

def fValue : ValueObject → Option JavaString
  | .pdaValue v => v
  | .pdaStackValue v _ => v

/-- `PDAValue.equals`. The receiver of `String.equals` is the string of the argument. -/
def valueEquals (this obj : ValueObject) : Except ObjectError Bool :=
  match obj.fValue with
  | none => .error .nullPointer
  | some v => .ok (decide (this.fValue = some v))

/-- `((PDAStackValue)obj).fIndex`. -/
def castIndex : ValueObject → Except ObjectError (BitVec 32)
  | .pdaValue _ => .error .classCast
  | .pdaStackValue _ i => .ok i

/-- `PDAStackValue.equals` of an object with that index. -/
def stackValueEquals (this : ValueObject) (fIndex : BitVec 32) (obj : ValueObject) :
    Except ObjectError Bool := do
  if ← valueEquals this obj then
    let i ← castIndex obj
    return decide (i = fIndex)
  else return false

/-- `this.equals(obj)`, by the class of `this`. -/
def equals (this obj : ValueObject) : Except ObjectError Bool :=
  match this with
  | .pdaValue _ => valueEquals this obj
  | .pdaStackValue _ i => stackValueEquals this i obj

/-- `PDAValue.hashCode`. -/
def valueHashCode (this : ValueObject) : Except ObjectError (BitVec 32) :=
  match this.fValue with
  | none => .error .nullPointer
  | some v => .ok (stringHashCode v)

/-- `this.hashCode()`, by the class of `this`. -/
def hashCode (this : ValueObject) : Except ObjectError (BitVec 32) :=
  match this with
  | .pdaValue _ => valueHashCode this
  | .pdaStackValue _ i => do return (← valueHashCode this) + i

/-- The index, where there is one. -/
def index : ValueObject → Option (BitVec 32)
  | .pdaValue _ => none
  | .pdaStackValue _ i => some i

/-- No string is null, and no value of the one class shares its string with a value of
the other. -/
structure Separated (S : Set ValueObject) : Prop where
  notNull : ∀ v ∈ S, v.fValue ≠ none
  unshared : ∀ s i, .pdaValue s ∈ S → .pdaStackValue s i ∉ S

theorem equals_null (this obj : ValueObject) (h : obj.fValue = none) :
    equals this obj = .error .nullPointer := by
  have hv : valueEquals this obj = .error .nullPointer := by rw [valueEquals, h]
  cases this with
  | pdaValue s => exact hv
  | pdaStackValue s i => simp only [equals, stackValueEquals, hv]; rfl

/-- The superclass calls a stack value of the same string equal. -/
theorem pdaValue_equals_pdaStackValue (s : JavaString) (i : BitVec 32) :
    equals (.pdaValue (some s)) (.pdaStackValue (some s) i) = .ok true := by
  simp [equals, valueEquals, fValue]

/-- The other way round the cast fails. -/
theorem pdaStackValue_equals_pdaValue (s : JavaString) (i : BitVec 32) :
    equals (.pdaStackValue (some s) i) (.pdaValue (some s)) = .error .classCast := by
  simp [equals, stackValueEquals, valueEquals, fValue, castIndex]
  rfl

theorem valueEquals_some (this : ValueObject) {obj : ValueObject} {s : JavaString}
    (h : obj.fValue = some s) : valueEquals this obj = .ok (decide (this.fValue = some s)) := by
  rw [valueEquals, h]

/-- Where nothing throws, the methods compare the string and the index. -/
theorem equals_of_unshared (a b : ValueObject) (hb : b.fValue ≠ none)
    (h : a.fValue = b.fValue → a.index.isSome = b.index.isSome) :
    equals a b = .ok (decide ((a.fValue, a.index) = (b.fValue, b.index))) := by
  obtain ⟨s, hs⟩ := Option.ne_none_iff_exists'.mp hb
  have hsuper := valueEquals_some a hs
  by_cases hab : a.fValue = some s
  · -- the same string: both are of one class
    have hindex := h (hab.trans hs.symm)
    cases a with
    | pdaValue v =>
      cases b with
      | pdaValue w => simp [equals, hsuper, hab, hs, index]
      | pdaStackValue w j => simp [index] at hindex
    | pdaStackValue v i =>
      cases b with
      | pdaValue w => simp [index] at hindex
      | pdaStackValue w j =>
        simp [equals, stackValueEquals, hsuper, hab, hs, index, castIndex, eq_comm]
        rfl
  · have hne : ¬ (a.fValue, a.index) = (b.fValue, b.index) := by simp [hs, hab]
    rw [decide_eq_false hab] at hsuper
    rw [decide_eq_false hne]
    cases a with
    | pdaValue v => exact hsuper
    | pdaStackValue v i => simp only [equals, stackValueEquals, hsuper]; rfl

/-- The hash code of a string and an index. -/
def hashOf (key : Option JavaString × Option (BitVec 32)) : BitVec 32 :=
  stringHashCode (key.1.getD []) + key.2.getD 0

theorem hashCode_eq (a : ValueObject) (ha : a.fValue ≠ none) :
    hashCode a = .ok (hashOf (a.fValue, a.index)) := by
  obtain ⟨s, hs⟩ := Option.ne_none_iff_exists'.mp ha
  cases a with
  | pdaValue v => simp_all [hashCode, valueHashCode, hashOf, fValue, index]
  | pdaStackValue v i =>
    simp_all [hashCode, valueHashCode, hashOf, fValue, index]

theorem Separated.contract {S : Set ValueObject} (h : Separated S) :
    Contract equals hashCode S := by
  apply contract_of_key (fun a => (a.fValue, a.index)) hashOf
  · intro a ha b hb
    apply equals_of_unshared a b (h.notNull b hb)
    intro hab
    cases a with
    | pdaValue v =>
      cases b with
      | pdaValue w => rfl
      | pdaStackValue w j =>
        obtain rfl : v = w := hab
        exact absurd hb (h.unshared v j ha)
    | pdaStackValue v i =>
      cases b with
      | pdaStackValue w j => rfl
      | pdaValue w =>
        obtain rfl : v = w := hab
        exact absurd ha (h.unshared v i hb)
  · intro a ha
    exact hashCode_eq a (h.notNull a ha)

/-- Values keep the contract exactly when they are separated. -/
theorem contract_iff_separated (S : Set ValueObject) :
    Contract equals hashCode S ↔ Separated S := by
  refine ⟨fun h => ⟨?_, ?_⟩, Separated.contract⟩
  · intro v hv hnull
    have hr := h.refl v hv
    rw [equals_null v v hnull] at hr
    exact nomatch hr
  · intro s i hs hsi
    -- a shared string is compared from the side of the stack value
    obtain ⟨r, hr⟩ := h.answers _ hsi _ hs
    cases s with
    | none => rw [equals_null _ _ rfl] at hr; exact nomatch hr
    | some s => rw [pdaStackValue_equals_pdaValue] at hr; exact nomatch hr

/-- A local variable and the top of the data stack that both hold 1. -/
theorem one_breaks_contract :
    equals (.pdaValue (some (javaString (txt "1"))))
        (.pdaStackValue (some (javaString (txt "1"))) 0) = .ok true ∧
      equals (.pdaStackValue (some (javaString (txt "1"))) 0)
        (.pdaValue (some (javaString (txt "1")))) = .error .classCast ∧
      ¬ Contract equals hashCode Set.univ := by
  refine ⟨pdaValue_equals_pdaStackValue _ _, pdaStackValue_equals_pdaValue _ _, ?_⟩
  rw [contract_iff_separated]
  intro h
  exact h.unshared (some (javaString (txt "1"))) 0 (Set.mem_univ _) (Set.mem_univ _)

end ValueObject

end LuaIde
