/-
  DexShrinker/Unboxing/Candidates.lean
  ====================================
  **Enums that look as if they could become numbers.**

  A candidate is an enum right below the base class. It is rejected for what can be
  seen from its declaration and from what is pinned: subtypes, too many instance fields,
  static fields of its own that are read, initializers without a summary, and pinned or
  annotation members that name it. Members of the enum itself may be pinned, since they
  move along with it.
-/
import DexShrinker.App.View
import DexShrinker.Unboxing.Decoded
import DexShrinker.Unboxing.Reason

namespace DexShrinker

/-- Options of unboxing. -/
structure UnboxingOptions where
  /-- Enums with more instance fields keep their instances. -/
  maxInstanceFields : Nat := 7
  /-- Only the first reason is wanted for every enum. -/
  earlyExit : Bool := false

namespace Candidates

/-- The reasons in the declaration of an enum. -/
def declared (v : View) (maxInstanceFields : Nat) (c : ClassDef) : List Reason :=
  (if v.pins.hasType c.type then [.pinned] else [])
  ++ (if v.program.hasSubtypes c.type then [.subtypesPresent] else [])
  ++ (if c.instanceFields.length > maxInstanceFields then [.tooManyInstanceFields c.instanceFields.length] else [])
  ++ ((c.fields.filter fun f => f.isStatic && !f.isEnumConstant c.type && !f.isEnumValues c.type
        && v.fieldAccess.isRead f.ref).map fun f => .unexpectedStaticField f.ref)
  ++ ((c.methods.filter fun m => m.isInstanceInitializer && m.initSummary.isNone).map fun m =>
        .unsupportedInitializer m.ref)

/-- Enums that methods of annotations return. -/
def inAnnotations (p : Program) (enums : TypeSet) : List (Descriptor × Reason) :=
  (p.classes.filter (·.isAnnotationType)).flatMap fun a =>
    ((a.methods.map (·.ref.proto.returnType.base)).filter enums.contains).map fun t => (t, .annotationValue a.type)

/-- Enums that pinned members of other classes name. -/
def inPins (k : Pins) (enums : TypeSet) : List (Descriptor × Reason) :=
  (k.methods.toList.flatMap fun m =>
    ((m.proto.types.map Descriptor.base).filter fun t => enums.contains t && m.holder != t).map fun t =>
      (t, .inPinnedSignature m))
  ++ (k.fields.toList.filter fun f => enums.contains f.type.base && f.holder != f.type.base).map fun f =>
      (f.type.base, .inPinnedField f)

/-- The enums to look at further, and the reasons found. A class flagged as an enum that is
    not right below the base class is rejected. -/
def find (v : View) (o : UnboxingOptions) : TypeSet × Rejections :=
  let classes := v.program.programClasses
  let found := classes.filter (·.isEnum)
  let nested := classes.filter fun c => !c.isEnum && c.access.contains .enumFlag
  let enums : TypeSet := .ofList (found.map ClassDef.type)
  let reasons := (nested.map fun c => (c.type, Reason.subtypesPresent))
    ++ (found.flatMap fun c => (declared v o.maxInstanceFields c).map fun r => (c.type, r))
    ++ inAnnotations v.program enums ++ inPins v.pins enums
  let r := reasons.foldl (fun (r : Rejections) (t, reason) => r.add t reason) { earlyExit := o.earlyExit }
  (enums.filter (!r.isSettled ·), r)

end Candidates

end DexShrinker
