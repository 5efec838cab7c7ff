/-
  DexShrinker/Unboxing/Dissolve.lean
  ==================================
  **New names for members once enums are numbers.**

  An enum goes. Its static fields and its methods move to its local class, where instance
  methods become static and take the receiver as a number in front. Initializers and
  `values` go, `valueOf` gets a new body, and the lowered class initializer takes the
  place of the old one.

  All other classes keep their members under new types. A method whose prototype names an
  enum gets a suffix, the same for every method of its signature: so it cannot come to
  override a library method, and methods that overrode each other still do. Initializers
  cannot be renamed and are padded with null parameters instead.
-/
import DexShrinker.Lens.Recorder
import DexShrinker.Unboxing.Utility

namespace DexShrinker

open Std

/-- A type with enums taken for numbers. -/
def Descriptor.unbox (t : Descriptor) (enums : TypeSet) : Descriptor :=
  t.mapBase fun b => if enums.contains b then .int else b

/-- A prototype with enums taken for numbers. -/
def Prototype.unbox (p : Prototype) (enums : TypeSet) : Prototype := p.mapTypes (·.unbox enums)

/-! ### Enums -/

namespace LocalUtility

/-- The flags of members that move to a local class: public, without those in `dropped`. -/
def movedAccess (access dropped : AccessFlags) : AccessFlags :=
  access.remove (.privateFlag ||| .protectedFlag ||| dropped) ||| .publicFlag

/-- A static field of the enum in the local class. -/
def movedField (u : LocalUtility) (enums : TypeSet) (f : FieldDef) : FieldDef :=
  { f with
    ref := ⟨u.type, f.ref.name, f.ref.type.unbox enums⟩
    access := movedAccess f.access .enumFlag }

/-- The signature for a method of the enum in the local class, before clashes. -/
def movedSignature (enums : TypeSet) (enum : Descriptor) (m : MethodDef) : Signature :=
  if m.isStatic then ⟨m.ref.name, m.ref.proto.unbox enums⟩
  else ⟨"_" ++ m.ref.name, (m.ref.proto.prepend enum).unbox enums⟩

/-- The methods of a local class while it is filled. -/
structure Filling where
  methods : List MethodDef
  synthesized : List MethodRef
  recorder : Recorder

/-- Add a method that was put together. -/
def Filling.addSynthesized (s : Filling) (m : MethodDef) : Filling :=
  { s with methods := s.methods ++ [m], synthesized := s.synthesized ++ [m.ref] }

/-- Move a method of the enum that keeps its body. -/
def moveMethod (u : LocalUtility) (enums : TypeSet) (enum : Descriptor) (s : Filling) (m : MethodDef) :
    Outcome EnumError Filling := do
  let wanted := movedSignature enums enum m
  let taken := (s.methods.filter (·.ref.proto == wanted.proto)).map (·.ref.name)
  let ref : MethodRef := ⟨u.type, freshName wanted.name taken, wanted.proto⟩
  let recorder := s.recorder.moveMethod m.ref ref
  let code := (← m.decoded).map Code.body
  return { s with
    methods := s.methods ++ [{ m with
      ref := ref
      access := movedAccess m.access (.finalFlag ||| .abstractFlag) ||| .staticFlag
      code := code }]
    recorder := if m.isStatic then recorder else recorder.recordInvokeKind ref .static }

/-- Move a method of the enum, or what takes its place. -/
def fill (u : LocalUtility) (enums : TypeSet) (enum : Descriptor) (data : EnumData) (s : Filling) (m : MethodDef) :
    Outcome EnumError Filling := do
  if m.isInstanceInitializer || m.isClassInitializer || m.ref.isEnumValues enum then return s
  else if m.ref.isEnumValueOf enum then
    let d ← u.valueOfDef data
    return { s with recorder := s.recorder.moveMethod m.ref d.ref }.addSynthesized d
  else u.moveMethod enums enum s m

/-- Put the lowered class initializer into the local class. -/
def addClassInitializer (u : LocalUtility) (c : ClassDef) (body : Option Body) (s : Filling) : Filling :=
  match body, c.classInitializer? with
  | some body, some old =>
    let ref : MethodRef := ⟨u.type, MethodRef.clinitName, .void⟩
    { s with
      methods := s.methods ++ [{ old with ref := ref, code := some (.body body) }]
      recorder := s.recorder.moveMethod old.ref ref }
  | _, _ => s

/-- The local class that takes the place of the enum `c`, with the methods that were put
    together. -/
def dissolve (u : LocalUtility) (enums : TypeSet) (c : ClassDef) (fixed : FixedEnum) (r : Recorder) :
    Outcome EnumError (ClassDef × List MethodRef × Recorder) := do
  let s : Filling := ⟨[], [], r.moveType c.type .int⟩
  let s := s.addSynthesized (← u.nameDef fixed.data)
  let s ← fixed.data.fieldValues.toList.foldlM (fun (s : Filling) (f, values) => do
    return s.addSynthesized (← u.getterDef f (f.type.unbox enums) values)) s
  let fields := c.staticFields.map (u.movedField enums)
  let recorder := (c.staticFields.zip fields).foldl (fun (r : Recorder) (old, new) =>
    r.moveField old.ref new.ref) s.recorder
  let s := u.addClassInitializer c fixed.classInitializer { s with recorder := recorder }
  let s ← c.methods.foldlM (u.fill enums c.type fixed.data) s
  return ({ u.emptyClass with fields := fields, methods := s.methods }, s.synthesized, s.recorder)

end LocalUtility

/-! ### Other classes -/

/-- The suffix of methods whose prototype named an enum. -/
def unboxedSuffix : String := "$enumunboxing$"

/-- The names given to methods, by old signature, and the signatures in use. -/
structure Retyping where
  enums : TypeSet
  /-- The type of padding parameters. -/
  padding : Descriptor
  taken : List Signature
  renamed : TreeMap Signature String := ∅
  recorder : Recorder

namespace Retyping

/-- The new name of all methods with a signature that names an enum. -/
def name (r : Retyping) (s : Signature) : String × Retyping :=
  match r.renamed[s]? with
  | some n => (n, r)
  | none =>
    let proto := s.proto.unbox r.enums
    let n := freshName (s.name ++ unboxedSuffix) ((r.taken.filter (·.proto == proto)).map Signature.name)
    (n, { r with taken := r.taken ++ [⟨n, proto⟩], renamed := r.renamed.insert s n })

/-- Retype a field. -/
def field (r : Retyping) (f : FieldDef) : FieldDef × Retyping :=
  let ref := { f.ref with type := f.ref.type.unbox r.enums }
  ({ f with ref := ref }, if ref = f.ref then r else { r with recorder := r.recorder.moveField f.ref ref })

/-- Retype an initializer, padded until its prototype is none of `protos`. -/
def initializer (r : Retyping) (m : MethodDef) (protos : List Prototype) : MethodRef × Retyping :=
  let candidate (n : Nat) := (m.ref.proto.unbox r.enums).append (List.replicate n r.padding)
  let n := firstFree candidate protos
  let ref := { m.ref with proto := candidate n }
  let changes := (List.replicate n (ExtraParameter.unusedNull r.padding)).foldl ProtoChanges.addParameter .none
  (ref, { r with recorder := r.recorder.recordDefinition ref changes })

/-- Retype a method, given the prototypes of initializers in use. -/
def method (r : Retyping) (holder : Descriptor) (protos : List Prototype) (m : MethodDef) :
    MethodDef × List Prototype × Retyping :=
  if !m.ref.proto.mentions r.enums then (m, protos, r)
  else
    let (ref, protos, r) :=
      if m.isInstanceInitializer then
        let (ref, r) := r.initializer m protos
        (ref, protos ++ [ref.proto], r)
      else
        let (n, r) := r.name m.ref.signature
        ((⟨holder, n, m.ref.proto.unbox r.enums⟩ : MethodRef), protos, r)
    ({ m with ref := ref }, protos, { r with recorder := r.recorder.moveMethod m.ref ref })

/-- Retype the members of a class. -/
def classDef (r : Retyping) (c : ClassDef) : ClassDef × Retyping :=
  let (fields, r) := c.fields.foldl (fun ((out, r) : List FieldDef × Retyping) f =>
    let (f, r) := r.field f
    (out ++ [f], r)) ([], r)
  let protos := (c.instanceInitializers.filter (!·.ref.proto.mentions r.enums)).map (·.ref.proto)
  let (methods, _, r) := c.methods.foldl (fun ((out, protos, r) : List MethodDef × List Prototype × Retyping) m =>
    let (m, protos, r) := r.method c.type protos m
    (out ++ [m], protos, r)) ([], protos, r)
  ({ c with fields := fields, methods := methods }, r)

end Retyping

end DexShrinker
