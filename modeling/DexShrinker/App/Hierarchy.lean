/-
  DexShrinker/App/Hierarchy.lean
  ==============================
  **Supertypes, subtypes and method resolution.**

  A program may lack classes and its hierarchy may have cycles, so every walk keeps
  the classes it has not been to and stops when it finds no new one. The exception is
  resolution along superclasses, which keeps no record: on a cycle without the method
  it never ends, and that is what it answers.

  Every reference type is below the top class; arrays are covariant in reference
  elements; between classes, subtyping is reachability over superclasses and
  interfaces.
-/
import DexShrinker.Program

namespace DexShrinker.Program

/-! ### Pools of classes -/

/-- The classes of a pool other than `t`. -/
def without (pool : List ClassDef) (t : Descriptor) : List ClassDef := pool.filter (·.type != t)

/-- How much work is left in a pool whose classes add `cost` things to do when they are
    reached. -/
def workLeft (cost : ClassDef → Nat) : List ClassDef → Nat
  | [] => 0
  | c :: pool => cost c + 1 + workLeft cost pool

theorem workLeft_without_le (cost : ClassDef → Nat) (pool : List ClassDef) (t : Descriptor) :
    workLeft cost (without pool t) ≤ workLeft cost pool := by
  induction pool with
  | nil => exact Nat.le_refl _
  | cons d pool ih =>
    simp only [without, List.filter_cons] at ih ⊢
    split <;> simp only [workLeft] <;> omega

/-- Reaching a class leaves less to do. -/
theorem workLeft_without_lt (cost : ClassDef → Nat) {pool : List ClassDef} {t : Descriptor} {c : ClassDef}
    (h : pool.find? (·.type == t) = some c) : workLeft cost (without pool t) + cost c < workLeft cost pool := by
  induction pool with
  | nil => cases h
  | cons d pool ih =>
    rw [List.find?_cons] at h
    split at h
    · next ht =>
      cases h
      have hle := workLeft_without_le cost pool t
      simp only [workLeft, without, List.filter_cons, bne, ht, Bool.not_true, Bool.false_eq_true, if_false] at hle ⊢
      omega
    · next ht =>
      have hlt := ih h
      simp only [workLeft, without, List.filter_cons, bne, ht, Bool.not_false, if_true] at hlt ⊢
      omega

/-- The classes of a pool that name `t` as a supertype. -/
def namingSuper (pool : List ClassDef) (t : Descriptor) : List ClassDef :=
  pool.filter (·.supertypes.contains t)

/-- The classes of a pool that do not name `t` as a supertype. -/
def notNamingSuper (pool : List ClassDef) (t : Descriptor) : List ClassDef :=
  pool.filter (!·.supertypes.contains t)

/-- Every class of a pool names `t` or does not. -/
theorem length_namingSuper_add (pool : List ClassDef) (t : Descriptor) :
    (namingSuper pool t).length + (notNamingSuper pool t).length = pool.length := by
  simp only [namingSuper, notNamingSuper]
  induction pool with
  | nil => rfl
  | cons c pool ih =>
    simp only [List.filter_cons]
    cases c.supertypes.contains t <;> simp only [Bool.not_true, Bool.not_false, if_true, Bool.false_eq_true, if_false,
      List.length_cons] <;> omega

/-! ### Supertypes -/

/-- The supertypes of the types in `work`, these included, over the classes in `pool`,
    with repetitions. -/
def ancestorsFrom (pool : List ClassDef) : List Descriptor → List Descriptor
  | [] => []
  | t :: work =>
    match _ : pool.find? (·.type == t) with
    | none => t :: ancestorsFrom pool work
    | some c => t :: ancestorsFrom (without pool t) (c.supertypes ++ work)
termination_by work => workLeft (·.supertypes.length) pool + work.length
decreasing_by
  · simp only [List.length_cons]
    omega
  · have hlt := workLeft_without_lt (·.supertypes.length) ‹pool.find? (·.type == t) = some c›
    simp only [List.length_append, List.length_cons]
    omega

/-- The type `t` and all its supertypes, with repetitions. -/
def ancestors (p : Program) (t : Descriptor) : List Descriptor := ancestorsFrom p.classes [t]

/-- Superclasses from `t` upwards; every step leaves a class behind, of which there are at
    most `fuel`. -/
def superclassesFrom (p : Program) : (fuel : Nat) → (seen : List Descriptor) → Descriptor → List Descriptor
  | 0, seen, _ => seen
  | fuel + 1, seen, t =>
    match (p.class? t).bind ClassDef.superclass with
    | none => seen
    | some s => if s ∈ seen then seen else p.superclassesFrom fuel (seen ++ [s]) s

/-- The superclasses of `t`, nearest first, up to the first class without a definition,
    which is included. -/
def superclassChain (p : Program) (t : Descriptor) : List Descriptor := p.superclassesFrom (p.size + 1) [] t

/-- A value of type `sub` may stand where one of type `sup` is asked for. -/
def isSubtype (p : Program) (sub sup : Descriptor) : Bool :=
  if sub = sup then true
  else if !sub.isReference || !sup.isReference then false
  else if sup = .object then true
  else
    match _ : sub.element?, sup.element? with
    | some a, some b => a.isReference && p.isSubtype a b
    | none, none => (p.ancestors sub).contains sup
    | _, _ => false
termination_by sub.chars.length
decreasing_by exact Descriptor.length_of_element? ‹sub.element? = some a›

/-- The closest common superclass of two reference types. Interfaces do not count, and
    unrelated types meet at the top. -/
def leastUpperBound (p : Program) (a b : Descriptor) : Descriptor :=
  if p.isSubtype a b then b
  else if p.isSubtype b a then a
  else
    match _ : a.element?, b.element? with
    | some x, some y =>
      if x.isReference && y.isReference then (p.leastUpperBound x y).toArray else .object
    | _, _ => ((p.superclassChain a).find? (p.isSubtype b)).getD .object
termination_by a.chars.length
decreasing_by exact Descriptor.length_of_element? ‹a.element? = some x›

/-! ### Subtypes -/

/-- The types that name `t` as a supertype, in order, once for every time they do. -/
def directSubtypes (p : Program) (t : Descriptor) : List Descriptor :=
  p.classes.flatMap fun c => (c.supertypes.filter (· == t)).map fun _ => c.type

def hasSubtypes (p : Program) (t : Descriptor) : Bool := p.classes.any fun c => c.supertypes.contains t

/-- The types in `pool` below those in `work`. -/
def descendantsFrom (pool : List ClassDef) : List Descriptor → List Descriptor
  | [] => []
  | t :: work =>
    match _ : (namingSuper pool t).isEmpty with
    | true => descendantsFrom pool work
    | false =>
      let found := (namingSuper pool t).map ClassDef.type
      found ++ descendantsFrom (notNamingSuper pool t) (found ++ work)
termination_by work => 2 * pool.length + work.length
decreasing_by
  · simp only [List.length_cons]
    omega
  · have hlen := length_namingSuper_add pool t
    simp only [List.length_append, List.length_map, List.length_cons]
    omega

/-- All types below `t`, in order. On a cycle that includes `t`. -/
def subtypes (p : Program) (t : Descriptor) : TypeSet := .ofList (descendantsFrom p.classes [t])

/-! ### Resolution -/

/-- What a walk up the superclasses ends with. -/
inductive SuperWalk where
  /-- A class has the method. -/
  | found (method : MethodDef)
  /-- A class has no definition. -/
  | broken
  /-- No class has the method; these are the interfaces met, last one first. -/
  | exhausted (interfaces : List Descriptor)

/-- Look for a signature in the class `t` and its superclasses. A walk over more classes
    than the program has, which are `fuel`, has come round a cycle and never ends. -/
def walkSuperclasses (p : Program) (s : Signature) : (fuel : Nat) → List Descriptor → Descriptor → Guarded SuperWalk
  | 0, _, _ => .error .diverges
  | fuel + 1, interfaces, t =>
    match p.class? t with
    | none => .ok .broken
    | some c =>
      match c.methodBySignature? s with
      | some m => .ok (.found m)
      | none =>
        let interfaces := c.interfaces.reverse ++ interfaces
        match c.superclass with
        | some t => p.walkSuperclasses s fuel interfaces t
        | none => .ok (.exhausted interfaces)

/-- Look for a signature in the interfaces of a stack and the interfaces they extend, over
    the classes in `pool`. -/
def searchInterfaces (s : Signature) (pool : List ClassDef) : List Descriptor → Option MethodDef
  | [] => none
  | t :: stack =>
    match _ : pool.find? (·.type == t) with
    | none => searchInterfaces s pool stack
    | some c =>
      match c.methodBySignature? s with
      | some m => some m
      | none => searchInterfaces s (without pool t) (c.interfaces.reverse ++ stack)
termination_by stack => workLeft (·.interfaces.length) pool + stack.length
decreasing_by
  · simp only [List.length_cons]
    omega
  · have hlt := workLeft_without_lt (·.interfaces.length) ‹pool.find? (·.type == t) = some c›
    simp only [List.length_append, List.length_reverse, List.length_cons]
    omega

/-- The definition that a call of `m` names: in its holder or a superclass, else in an
    interface. A superclass without a definition ends the search. -/
def resolveMethod (p : Program) (m : MethodRef) : Guarded (Option MethodDef) := do
  match ← p.walkSuperclasses m.signature (p.size + 1) [] m.holder with
  | .found d => return some d
  | .broken => return none
  | .exhausted interfaces => return searchInterfaces m.signature p.classes interfaces

end DexShrinker.Program
