/-! # Log records

Records are collected beside the result of a computation and never influence it.
-/

namespace Rtl

inductive Level where
  | debug
  | warn
deriving DecidableEq

/-- The part of the program that a record comes from. -/
inductive Origin where
  | manager
  | vacuous
  | inlining
deriving DecidableEq

structure Record where
  level : Level
  origin : Origin
  message : String
deriving DecidableEq

def Level.name : Level → String
  | debug => "DEBUG"
  | warn => "WARN"

/-- A value together with what was logged while it was computed. -/
structure Logged (α : Type) where
  value : α
  records : List Record := []

namespace Logged

instance : Monad Logged where
  pure value := ⟨value, []⟩
  bind x f := ⟨(f x.value).value, x.records ++ (f x.value).records⟩

variable {α β : Type}

@[simp] theorem value_pure (a : α) : (pure a : Logged α).value = a := rfl

@[simp] theorem records_pure (a : α) : (pure a : Logged α).records = [] := rfl

@[simp] theorem value_bind (x : Logged α) (f : α → Logged β) :
    (x >>= f).value = (f x.value).value := rfl

@[simp] theorem records_bind (x : Logged α) (f : α → Logged β) :
    (x >>= f).records = x.records ++ (f x.value).records := rfl

end Logged

end Rtl
