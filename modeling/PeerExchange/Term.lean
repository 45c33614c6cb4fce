import PeerExchange.Literal

namespace PeerExchange

structure Variable where
  name : String
  existential : Bool := false
  skolem : Option Nat := none
deriving DecidableEq

inductive Term where
  | variable (v : Variable)
  | constant (type : Option ColumnType) (value : Literal)
  | skolem (function : String) (args : List Term)

namespace Term

def var (name : String) : Term := .variable ⟨name, false, none⟩

def lit (value : Literal) : Term := .constant value.type? value

def typedNull (type : ColumnType) : Term := .constant (some type) .null

def asVariable? : Term → Option Variable
  | .variable v => some v
  | _ => none

def isNull : Term → Bool
  | .constant _ .null => true
  | _ => false

mutual

def decEq : (a b : Term) → Decidable (a = b)
  | .variable v, .variable w =>
    if same : v = w then isTrue (by rw [same])
    else isFalse fun equal => same (variable.inj equal)
  | .constant s x, .constant t y =>
    if same : s = t ∧ x = y then isTrue (by rw [same.1, same.2])
    else isFalse fun equal => same (constant.inj equal)
  | .skolem f as, .skolem g bs =>
    if same : f = g then
      match decEqList as bs with
      | isTrue equal => isTrue (by rw [same, equal])
      | isFalse differ => isFalse fun equal => differ (skolem.inj equal).2
    else isFalse fun equal => same (skolem.inj equal).1
  | .variable _, .constant _ _ => isFalse nofun
  | .variable _, .skolem _ _ => isFalse nofun
  | .constant _ _, .variable _ => isFalse nofun
  | .constant _ _, .skolem _ _ => isFalse nofun
  | .skolem _ _, .variable _ => isFalse nofun
  | .skolem _ _, .constant _ _ => isFalse nofun

def decEqList : (as bs : List Term) → Decidable (as = bs)
  | [], [] => isTrue rfl
  | a :: as, b :: bs =>
    match decEq a b with
    | isTrue head =>
      match decEqList as bs with
      | isTrue tail => isTrue (by rw [head, tail])
      | isFalse differ => isFalse fun equal => differ (List.cons.inj equal).2
    | isFalse differ => isFalse fun equal => differ (List.cons.inj equal).1
  | [], _ :: _ => isFalse nofun
  | _ :: _, [] => isFalse nofun

end

instance : DecidableEq Term := decEq

mutual

def vars : Term → List Variable
  | .variable v => [v]
  | .constant _ _ => []
  | .skolem _ args => variablesOf args

def variablesOf : List Term → List Variable
  | [] => []
  | a :: rest => vars a ++ variablesOf rest

end

@[simp] theorem variablesOf_eq_flatMap (args : List Term) :
    variablesOf args = args.flatMap vars := by
  induction args with
  | nil => rfl
  | cons a rest ih => simp [variablesOf, ih]

mutual

def bind (f : Variable → Term) : Term → Term
  | .variable v => f v
  | .constant type value => .constant type value
  | .skolem function args => .skolem function (bindAll f args)

def bindAll (f : Variable → Term) : List Term → List Term
  | [] => []
  | a :: rest => bind f a :: bindAll f rest

end

@[simp] theorem bindAll_eq_map (f : Variable → Term) (args : List Term) :
    bindAll f args = args.map (bind f) := by
  induction args with
  | nil => rfl
  | cons a rest ih => simp [bindAll, ih]

def plain (t : Term) : Term := t.bind fun v => var v.name

def same (a b : Term) : Bool := a.plain = b.plain

def sameList (as bs : List Term) : Bool := as.map plain = bs.map plain

mutual

def render : Term → String
  | .variable v => v.name
  | .constant _ value => value.render
  | .skolem function args => function ++ "(" ++ ", ".intercalate (renderAll args) ++ ")"

def renderAll : List Term → List String
  | [] => []
  | a :: rest => render a :: renderAll rest

end

@[simp] theorem renderAll_eq_map (args : List Term) : renderAll args = args.map render := by
  induction args with
  | nil => rfl
  | cons a rest ih => simp [renderAll, ih]

end Term

def distinctNames : List String → List String
  | [] => []
  | name :: rest => name :: (distinctNames rest).filter (· ≠ name)

end PeerExchange
