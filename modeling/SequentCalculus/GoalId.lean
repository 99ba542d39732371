import SequentCalculus.Fault

/-!
# Goal numbers

The goals of a proof are numbered in 32 bits, in the order in which they come up.
-/

namespace SequentCalculus

/-- The number of a goal. -/
structure GoalId where
  index : Nat
  index_lt : index < UInt32.size
  deriving DecidableEq, Repr

namespace GoalId

/-- The first goal number. -/
def zero : GoalId := ⟨0, by decide⟩

theorem index_inj {id id' : GoalId} (h : id.index = id'.index) : id = id' := by
  cases id
  cases id'
  simp_all

/-- A number as a goal number, if it fits. -/
def ofNat (n : Nat) : Except Fault GoalId :=
  if h : n < UInt32.size then .ok ⟨n, h⟩ else .error .idTooLarge

theorem ofNat_eq_ok {n : Nat} {id : GoalId} (h : ofNat n = .ok id) : id.index = n := by
  unfold ofNat at h
  split at h
  · obtain rfl := Except.ok.inj h
    rfl
  · cases h

theorem ofNat_eq_error {n : Nat} {fault : Fault} (h : ofNat n = .error fault) :
    fault = .idTooLarge ∧ UInt32.size ≤ n := by
  unfold ofNat at h
  split at h
  · cases h
  · rename_i hlt
    exact ⟨(Except.error.inj h).symm, Nat.le_of_not_lt hlt⟩

/-- How a goal number is shown. -/
def text (id : GoalId) : String :=
  toString id.index

/-- How a goal number is shown in log entries. -/
def debugText (id : GoalId) : String :=
  s!"#{id.index}"

/-- How a list of goal numbers is shown in log entries. -/
def debugTextList (ids : List GoalId) : String :=
  "[" ++ ", ".intercalate (ids.map debugText) ++ "]"

end GoalId

end SequentCalculus
