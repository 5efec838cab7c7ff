/-
  DexShrinker/Proofs/Unboxing/Tracking.lean
  =========================================
  **What is found about an enum does not depend on the other enums that are tracked.**

  Two scans of one body, of which the second tracks fewer enums, find the same about those
  (`UseSites.agreeOn_ofMethod`). There is one condition: the body must not take a value of one
  enum for a value of another (`UseSites.Separates`). If it does, what the scan says depends on
  the enum that it looks at first, and only a tracked enum is looked at.

  Over all bodies the second scan can find more, for it leaves out the methods that unboxing
  replaces only in the enums that it tracks (`UseSites.mem_scan_of_fewer`).
-/
import DexShrinker.Unboxing.UseSites
import DexShrinker.Proofs.Descriptor
import DexShrinker.Proofs.Outcome

namespace DexShrinker

open Std (TreeSet)

namespace UseSites

/-- The enum that a finding is about. -/
def Finding.enum : Finding → Descriptor
  | .rejects e _ => e
  | .reads f => f.holder

/-! ### Findings about some of the enums -/

/-- Nothing is found about the given enums. -/
def Silent (kept : TypeSet) (xs : List Finding) : Prop := ∀ f ∈ xs, f.enum ∉ kept

/-- The same is found about the given enums. -/
def AgreeOn (kept : TypeSet) (xs ys : List Finding) : Prop := ∀ f : Finding, f.enum ∈ kept → (f ∈ xs ↔ f ∈ ys)

section

variable {kept : TypeSet} {xs ys xs' ys' : List Finding}

@[simp] theorem silent_nil : Silent kept [] := by simp [Silent]

theorem Silent.append (h : Silent kept xs) (h' : Silent kept xs') : Silent kept (xs ++ xs') :=
  fun f hf => (List.mem_append.1 hf).elim (h f) (h' f)

@[simp] theorem AgreeOn.refl (kept : TypeSet) (xs : List Finding) : AgreeOn kept xs xs := fun _ _ => Iff.rfl

theorem Silent.agreeOn (hx : Silent kept xs) (hy : Silent kept ys) : AgreeOn kept xs ys :=
  fun f hf => iff_of_false (fun hmem => hx f hmem hf) fun hmem => hy f hmem hf

theorem AgreeOn.append (h : AgreeOn kept xs ys) (h' : AgreeOn kept xs' ys') : AgreeOn kept (xs ++ xs') (ys ++ ys') := by
  intro f hf
  rw [List.mem_append, List.mem_append, h f hf, h' f hf]

theorem Silent.agreeOn_cons {f : Finding} (hf : f.enum ∉ kept) (h : AgreeOn kept xs ys) : AgreeOn kept (f :: xs) ys := by
  intro g hg
  rw [List.mem_cons, h g hg, or_iff_right]
  rintro rfl
  exact hf hg

/-- Walks that find the same at every place find the same. -/
theorem agreeOn_flatten {α : Type} {as : List α} {f g : α → Guarded (List Finding)} {xss yss : List (List Finding)}
    (hstep : ∀ a ∈ as, ∀ xs ys, f a = .ok xs → g a = .ok ys → AgreeOn kept xs ys) (hx : as.mapM f = .ok xss)
    (hy : as.mapM g = .ok yss) : AgreeOn kept xss.flatten yss.flatten := by
  rw [mapM_eq_ok_iff] at hx hy
  induction hx generalizing yss with
  | nil =>
    cases hy
    exact AgreeOn.refl kept _
  | cons hfa _ ih =>
    cases hy with
    | cons hga hrest =>
      rw [List.flatten_cons, List.flatten_cons]
      exact (hstep _ List.mem_cons_self _ _ hfa hga).append (ih (fun a ha => hstep a (List.mem_cons_of_mem _ ha)) hrest)

/-- What is found about an enum, if there is one. -/
theorem agreeOn_elim {F : Descriptor → List Finding} (hF : ∀ e, ∀ f ∈ F e, f.enum = e) (x : Option Descriptor) :
    AgreeOn kept (x.elim [] F) ((x.filter kept.contains).elim [] F) := by
  cases x with
  | none => exact AgreeOn.refl kept _
  | some e =>
    cases he : kept.contains e with
    | true => simp [Option.filter, he]
    | false =>
      simp only [Option.filter, he, Option.elim, Bool.false_eq_true, if_false]
      refine Silent.agreeOn (fun f hf hmem => ?_) silent_nil
      rw [hF e f hf, TreeSet.mem_iff_contains, he] at hmem
      cases hmem

end

/-! ### Bodies that keep enums apart -/

theorem ofSignature?_of_classify {c : Option ClassDef} {kind : InvokeKind} {m : MethodRef} {method : EnumMethod}
    (h : ReceiverCall.classify c kind m = .supported method) : EnumMethod.ofSignature? m.signature = some method := by
  have hinherited (h : ((EnumMethod.ofSignature? m.signature).map ReceiverCall.supported).getD .invalid = .supported method) :
      EnumMethod.ofSignature? m.signature = some method := by
    cases hsignature : EnumMethod.ofSignature? m.signature with
    | none =>
      rw [hsignature] at h
      cases h
    | some n =>
      rw [hsignature] at h
      cases h
      rfl
  unfold ReceiverCall.classify at h
  split at h
  · cases h
  · split at h
    · cases h
    · dsimp only at h
      split at h
      · exact hinherited h
      · split at h
        · split at h
          · cases h
          · cases h
        · exact hinherited h

namespace Site

variable (s : Site)

/-- The scan of the same body that tracks other enums. -/
def only (kept : TypeSet) : Site := { s with tracked := kept }

/-- The type names no tracked enum but `e`. -/
def namesOnly (e t : Descriptor) : Bool := (s.enumOf t).all (· == e)

/-- The enum of the object that a call is on. -/
def receiverEnum (kind : InvokeKind) (args : List ValueId) : Guarded (Option Descriptor) :=
  match kind, args.head? with
  | .static, _ | _, none => pure none
  | _, some r => s.valueEnum r

/-- A value of `e` can be compared with the argument of a call. -/
def comparable (e : Descriptor) (arg : ValueId) (param : Descriptor) : Bool :=
  s.namesOnly e param &&
    (!s.defs.isNull arg ||
      match s.body.typeOf arg with
      | .ok t => s.namesOnly e t
      | .error _ => true)

/-- A field of one enum is not looked for in a value of another. -/
def separatesAccess (f : FieldRef) (object : ValueId) : Bool :=
  match s.valueEnum object with
  | .ok (some e) => s.namesOnly e f.holder
  | _ => true

/-- A method of one enum is not called on a value of another, nor are the two compared by a call. -/
def separatesCall (kind : InvokeKind) (m : MethodRef) (args : List ValueId) : Bool :=
  match s.receiverEnum kind args with
  | .ok (some e) =>
    s.namesOnly e m.holder &&
      (!(EnumMethod.ofSignature? m.signature).any EnumMethod.isBinary ||
        ((args.drop 1).zip m.proto.parameters).all fun (arg, param) => s.comparable e arg param)
  | _ => true

/-- The operation takes no value of one enum for a value of another. -/
def separates : Op → Bool
  | .instanceGet f object | .instancePut f object _ => s.separatesAccess f object
  | .invoke kind m args _ => s.separatesCall kind m args
  | _ => true

/-- A value of one enum is not compared with the null of another. -/
def separatesOperands (lhs rhs : ValueId) : Bool :=
  match s.valueEnum lhs, s.valueEnum rhs with
  | .ok (some a), .ok (some b) => a == b || !(s.defs.isNull lhs || s.defs.isNull rhs)
  | _, _ => true

/-- The terminator takes no value of one enum for a value of another. -/
def separatesEnd : Terminator → Bool
  | .branch _ .object lhs (some rhs) _ => s.separatesOperands lhs rhs
  | _ => true

/-- What an access to a static field of an enum shows. -/
def staticFindings (f : FieldRef) (isWrite : Bool) (e : Descriptor) : List Finding :=
  match (s.program.class? e).bind (·.field? f) with
  | none => [.rejects e (.invalidFieldAccess f)]
  | some d =>
    if d.isEnumConstant e || d.isEnumValues e then
      if isWrite && !s.initializes e then [.rejects e (.invalidFieldAccess f)] else []
    else if isWrite then [] else [.rejects e (.unexpectedStaticField f)]

/-- What a call of a method that is named after an enum shows, if the enum is not seen at the receiver. -/
def holderFindings (m : MethodRef) (e : Descriptor) : List Finding :=
  if ((s.program.class? e).bind (·.method? m)).isSome then [] else [.rejects e (.invalidInvoke m)]

/-- What a read of an instance field of an enum shows. -/
def readFindings (f : FieldRef) (e : Descriptor) : List Finding :=
  if f.holder == e && ((s.program.class? e).bind (·.field? f)).any (!·.isStatic) then [.reads f]
  else [.rejects e (.invalidFieldAccess f)]

theorem instanceGet_eq (f : FieldRef) (object : ValueId) (dest : Option ValueId) :
    s.operation dest (.instanceGet f object) = return (← s.accessedEnum f object).elim [] (s.readFindings f) := by
  unfold operation
  refine congrArg (s.accessedEnum f object >>= ·) (funext fun x => ?_)
  cases x <;> rfl

theorem staticField_eq_elim (f : FieldRef) (isWrite : Bool) :
    s.staticField f isWrite = (s.exactEnum f.holder).elim [] (s.staticFindings f isWrite) := by
  unfold staticField
  cases s.exactEnum f.holder <;> rfl

theorem receiver_none (kind : InvokeKind) (m : MethodRef) :
    s.receiver kind m none = ((s.exactEnum m.holder).elim [] (s.holderFindings m), false) := by
  unfold receiver
  cases s.exactEnum m.holder <;> rfl

theorem invoke_eq (kind : InvokeKind) (m : MethodRef) (args : List ValueId) (dest : Option ValueId) :
    s.invoke kind m args dest = do
      let enum ← s.receiverEnum kind args
      let found := s.receiver kind m enum
      if m.isRequireNonNull then return found.1 ++ (← s.nullCheck args dest)
      else
        let passed := if kind = .static then args else args.drop 1
        return found.1 ++ (← (passed.zip m.proto.parameters).mapM fun (arg, param) =>
          s.argument m (if found.2 then enum else none) arg param).flatten := by
  cases args <;> cases kind <;> rfl

/-- The call compares two enums only if it calls a method that does. -/
theorem isBinary_of_receiver {kind : InvokeKind} {m : MethodRef} {e : Descriptor} (h : (s.receiver kind m (some e)).2 = true) :
    (EnumMethod.ofSignature? m.signature).any EnumMethod.isBinary = true := by
  unfold receiver at h
  dsimp only at h
  split at h
  · cases h
  · next method hclass =>
    rw [ofSignature?_of_classify hclass]
    exact h
  · cases h

/-! ### What is found about one enum -/

section

variable {s} {kept : TypeSet} {xs ys : List Finding}

theorem filter_of_mem {e : Descriptor} (he : e ∈ kept) : (some e).filter kept.contains = some e := if_pos he

theorem filter_of_not_mem {e : Descriptor} (he : e ∉ kept) : (some e).filter kept.contains = none := if_neg he

/-- Nothing is found where a value goes if neither its type nor the expected one names an enum. -/
theorem eq_nil_of_flow {v : ValueId} {t expected : Descriptor} (hexpected : s.enumOf expected = none) (ht : s.body.typeOf v = .ok t)
    (hactual : s.enumOf t = none) (h : s.flow v expected = .ok xs) : xs = [] := by
  obtain ⟨t', ht', h⟩ := bind_eq_ok.1 h
  cases ht.symm.trans ht'
  split at h
  · cases h
    rfl
  · cases h
    rw [hexpected, hactual]
    split <;> rfl

theorem enum_of_mem_holderFindings {m : MethodRef} {e : Descriptor} {g : Finding} (h : g ∈ s.holderFindings m e) : g.enum = e := by
  unfold holderFindings at h
  split at h
  · cases h
  · rw [List.mem_singleton.1 h]
    rfl

theorem enum_of_mem_readFindings {f : FieldRef} {e : Descriptor} {g : Finding} (h : g ∈ s.readFindings f e) : g.enum = e := by
  unfold readFindings at h
  split at h
  · next hdeclared =>
    rw [List.mem_singleton.1 h]
    exact eq_of_beq (Bool.and_eq_true_iff.1 hdeclared).1
  · rw [List.mem_singleton.1 h]
    rfl

theorem enum_of_mem_staticFindings {f : FieldRef} {isWrite : Bool} {e : Descriptor} {g : Finding} (h : g ∈ s.staticFindings f isWrite e) :
    g.enum = e := by
  unfold staticFindings at h
  repeat' split at h
  all_goals simp_all [Finding.enum]

theorem agreeOn_map {g : Descriptor → Finding} (hg : ∀ e, (g e).enum = e) (x : Option Descriptor) :
    AgreeOn kept (x.toList.map g) ((x.filter kept.contains).toList.map g) := by
  have helim (x : Option Descriptor) : x.toList.map g = x.elim [] fun e => [g e] := by cases x <;> rfl
  rw [helim, helim]
  exact agreeOn_elim (fun e f hf => by rw [List.mem_singleton.1 hf, hg]) x

theorem agreeOn_escape (x : Option Descriptor) : AgreeOn kept (s.escape x) ((s.only kept).escape (x.filter kept.contains)) :=
  agreeOn_map (fun _ => rfl) x

theorem silent_escape {e : Descriptor} (he : e ∉ kept) : Silent kept (s.escape (some e)) := by
  intro f hf
  rw [List.mem_singleton.1 hf]
  exact he

theorem silent_receiver {e : Descriptor} (he : e ∉ kept) (kind : InvokeKind) (m : MethodRef) :
    Silent kept (s.receiver kind m (some e)).1 := by
  intro f hf
  have henum : f.enum = e := by
    unfold receiver at hf
    dsimp only at hf
    split at hf
    · split at hf
      · rw [List.mem_singleton.1 hf]
        rfl
      · cases hf
    · cases hf
    · rw [List.mem_singleton.1 hf]
      rfl
  rwa [henum]

theorem base_of_receiverEnum {kind : InvokeKind} {args : List ValueId} {e : Descriptor} (h : s.receiverEnum kind args = .ok (some e)) :
    e.base = e := by
  have hvalue {v : ValueId} (h : s.valueEnum v = .ok (some e)) : e.base = e := by
    obtain ⟨t, -, h⟩ := bind_eq_ok.1 h
    rw [pure_eq_ok] at h
    unfold enumOf at h
    split at h
    · cases h
      exact Descriptor.base_of_isArray t.isArray_base
    · cases h
  unfold receiverEnum at h
  split at h
  · cases h
  · cases h
  · exact hvalue h

/-- Nothing is found about enums that neither the type of the value nor the expected one names. -/
theorem silent_flow {v : ValueId} {t expected : Descriptor} (ht : s.body.typeOf v = .ok t)
    (hactual : ∀ e, s.enumOf t = some e → e ∉ kept) (hexpected : ∀ e, s.enumOf expected = some e → e ∉ kept)
    (h : s.flow v expected = .ok xs) : Silent kept xs := by
  have hescape (x : Option Descriptor) (hx : ∀ e, x = some e → e ∉ kept) : Silent kept (s.escape x) := by
    cases x with
    | none => exact silent_nil
    | some e => exact silent_escape (hx e rfl)
  obtain ⟨t', ht', h⟩ := bind_eq_ok.1 h
  cases ht.symm.trans ht'
  split at h
  · cases h
    exact silent_nil
  · cases h
    refine (hescape _ hactual).append ?_
    split
    · exact silent_nil
    · exact hescape _ hexpected

/-! ### One body under two scans -/

variable (hkept : ∀ t ∈ kept, t ∈ s.tracked)
include hkept

theorem enumOf_only (t : Descriptor) :
    (s.only kept).enumOf t = (s.enumOf t).filter kept.contains := by
  unfold enumOf only
  cases hmem : kept.contains t.base with
  | true =>
    have htracked : s.tracked.contains t.base = true := hkept _ hmem
    simp [htracked, hmem, Option.filter]
  | false => cases htracked : s.tracked.contains t.base <;> simp [hmem, Option.filter]

theorem exactEnum_only (t : Descriptor) :
    (s.only kept).exactEnum t = (s.exactEnum t).filter kept.contains := by
  unfold exactEnum
  rw [enumOf_only hkept, Option.filter_filter, Option.filter_filter]
  simp only [Bool.and_comm]

theorem valueEnum_only {v : ValueId} {x : Option Descriptor} (h : s.valueEnum v = .ok x) :
    (s.only kept).valueEnum v = .ok (x.filter kept.contains) := by
  obtain ⟨t, ht, h⟩ := bind_eq_ok.1 h
  cases h
  exact bind_eq_ok.2 ⟨t, ht, congrArg Except.ok (enumOf_only hkept t)⟩

theorem receiverEnum_only {kind : InvokeKind} {args : List ValueId} {x : Option Descriptor}
    (h : s.receiverEnum kind args = .ok x) : (s.only kept).receiverEnum kind args = .ok (x.filter kept.contains) := by
  cases args with
  | nil => cases kind <;> cases h <;> rfl
  | cons r rest =>
    cases kind with
    | static =>
      cases h
      rfl
    | virtual | interface | direct | super => exact valueEnum_only hkept h

/-- A type that names no other enum than one that is no longer tracked names none at all. -/
theorem enumOf_only_eq_none {e t : Descriptor} (he : e ∉ kept) (h : s.namesOnly e t = true) :
    (s.only kept).enumOf t = none := by
  rw [enumOf_only hkept]
  unfold namesOnly at h
  cases henum : s.enumOf t with
  | none => rfl
  | some a =>
    rw [henum] at h
    simp only [Option.all_some, beq_iff_eq] at h
    subst h
    exact filter_of_not_mem he

theorem agreeOn_escapeAll (ts : List Descriptor) :
    AgreeOn kept (s.escapeAll ts) ((s.only kept).escapeAll ts) := by
  induction ts with
  | nil => exact AgreeOn.refl kept _
  | cons t ts ih =>
    refine AgreeOn.append ?_ ih
    beta_reduce
    rw [enumOf_only hkept]
    exact agreeOn_escape _

theorem agreeOn_flow {v : ValueId} {expected : Descriptor} (hx : s.flow v expected = .ok xs)
    (hy : (s.only kept).flow v expected = .ok ys) : AgreeOn kept xs ys := by
  obtain ⟨actual, hactual, hx⟩ := bind_eq_ok.1 hx
  obtain ⟨actual', hactual', hy⟩ := bind_eq_ok.1 hy
  cases hactual.symm.trans hactual'
  split at hx
  · next heq =>
    rw [if_pos heq] at hy
    cases hx
    cases hy
    exact AgreeOn.refl kept _
  · next hne =>
    rw [if_neg hne] at hy
    cases hx
    cases hy
    rw [enumOf_only hkept, enumOf_only hkept]
    refine (agreeOn_escape _).append ?_
    change AgreeOn kept (if s.defs.isNull v = true then [] else _) (if s.defs.isNull v = true then [] else _)
    split
    · exact AgreeOn.refl kept _
    · exact agreeOn_escape _

theorem agreeOn_staticField (f : FieldRef) (isWrite : Bool) :
    AgreeOn kept (s.staticField f isWrite) ((s.only kept).staticField f isWrite) := by
  rw [staticField_eq_elim, staticField_eq_elim, exactEnum_only hkept]
  exact agreeOn_elim (fun _ _ => enum_of_mem_staticFindings) _

theorem agreeOn_nullCheck {args : List ValueId} {dest : Option ValueId}
    (hx : s.nullCheck args dest = .ok xs) (hy : (s.only kept).nullCheck args dest = .ok ys) : AgreeOn kept xs ys := by
  cases args with
  | nil =>
    cases hx
    cases hy
    exact AgreeOn.refl kept _
  | cons v rest =>
    obtain ⟨x, hval, hx⟩ := bind_eq_ok.1 hx
    obtain ⟨x', hval', hy⟩ := bind_eq_ok.1 hy
    cases (valueEnum_only hkept hval).symm.trans hval'
    cases x with
    | none =>
      cases hx
      cases hy
      exact AgreeOn.refl kept _
    | some e =>
      by_cases he : e ∈ kept
      · rw [filter_of_mem he] at hy
        cases hx.symm.trans hy
        exact AgreeOn.refl kept _
      · rw [filter_of_not_mem he] at hy
        cases hy
        cases dest with
        | none =>
          cases hx
          exact AgreeOn.refl kept _
        | some d =>
          obtain ⟨uses, -, hx⟩ := bind_eq_ok.1 hx
          cases hx
          split
          · exact (silent_escape he).agreeOn silent_nil
          · exact AgreeOn.refl kept _

theorem agreeOn_receiver {kind : InvokeKind} {m : MethodRef} {x : Option Descriptor}
    (honly : ∀ e, x = some e → s.namesOnly e m.holder = true) :
    AgreeOn kept (s.receiver kind m x).1 ((s.only kept).receiver kind m (x.filter kept.contains)).1 := by
  cases x with
  | none =>
    rw [Option.filter_none, receiver_none, receiver_none, exactEnum_only hkept]
    exact agreeOn_elim (fun _ _ => enum_of_mem_holderFindings) _
  | some e =>
    by_cases he : e ∈ kept
    · rw [filter_of_mem he]
      exact AgreeOn.refl kept _
    · rw [filter_of_not_mem he, receiver_none, exactEnum, enumOf_only_eq_none hkept he (honly e rfl)]
      exact (silent_receiver he kind m).agreeOn silent_nil

theorem agreeOn_argument {m : MethodRef} {compared : Option Descriptor} {arg : ValueId}
    {param : Descriptor} (hx : s.argument m compared arg param = .ok xs)
    (hy : (s.only kept).argument m compared arg param = .ok ys) : AgreeOn kept xs ys := by
  cases compared with
  | none => exact agreeOn_flow hkept hx hy
  | some e =>
    obtain ⟨t, ht, hx⟩ := bind_eq_ok.1 hx
    obtain ⟨t', ht', hy⟩ := bind_eq_ok.1 hy
    cases ht.symm.trans ht'
    change (if (decide (t = e) || s.defs.isNull arg) = true then _ else _) = Except.ok ys at hy
    split at hx
    · next hfits =>
      rw [if_pos hfits] at hy
      cases hx
      cases hy
      exact AgreeOn.refl kept _
    · next hfits =>
      rw [if_neg hfits] at hy
      obtain ⟨xs', hflow, hx⟩ := bind_eq_ok.1 hx
      obtain ⟨ys', hflow', hy⟩ := bind_eq_ok.1 hy
      cases hx
      cases hy
      exact AgreeOn.append (AgreeOn.refl kept [_]) (agreeOn_flow hkept hflow hflow')

/-- An argument that is compared with a value of an enum that is no longer tracked. -/
theorem agreeOn_argument_untracked {m : MethodRef} {e : Descriptor} (he : e ∉ kept)
    (hbase : e.base = e) {arg : ValueId} {param : Descriptor} (hcomparable : s.comparable e arg param = true)
    (hx : s.argument m (some e) arg param = .ok xs) (hy : (s.only kept).argument m none arg param = .ok ys) : AgreeOn kept xs ys := by
  obtain ⟨t, ht, hx⟩ := bind_eq_ok.1 hx
  obtain ⟨hparam, hnull⟩ := Bool.and_eq_true_iff.1 hcomparable
  split at hx
  · next hfits =>
    cases hx
    have honly : s.namesOnly e t = true := by
      rcases Bool.or_eq_true_iff.1 hfits with heq | hisNull
      · rw [of_decide_eq_true heq]
        unfold namesOnly enumOf
        rw [hbase]
        split
        · exact beq_self_eq_true e
        · rfl
      · rw [hisNull, ht] at hnull
        exact hnull
    rw [eq_nil_of_flow (enumOf_only_eq_none hkept he hparam) ht (enumOf_only_eq_none hkept he honly) hy]
    exact AgreeOn.refl kept _
  · obtain ⟨xs', hflow, hx⟩ := bind_eq_ok.1 hx
    cases hx
    exact Silent.agreeOn_cons he (agreeOn_flow hkept hflow hy)

/-- **Calls.** -/
theorem agreeOn_invoke {kind : InvokeKind} {m : MethodRef} {args : List ValueId}
    {dest : Option ValueId} (hsep : s.separatesCall kind m args = true)
    (hx : s.invoke kind m args dest = .ok xs) (hy : (s.only kept).invoke kind m args dest = .ok ys) : AgreeOn kept xs ys := by
  rw [invoke_eq] at hx hy
  obtain ⟨x, hval, hx⟩ := bind_eq_ok.1 hx
  rw [receiverEnum_only hkept hval, ok_bind] at hy
  dsimp only at hx hy
  have hsome (e : Descriptor) (hxe : x = some e) : s.namesOnly e m.holder = true ∧
      ((s.receiver kind m (some e)).2 = true → ∀ a ∈ (args.drop 1).zip m.proto.parameters, s.comparable e a.1 a.2 = true) := by
    unfold separatesCall at hsep
    rw [hval, hxe] at hsep
    obtain ⟨hholder, hbinary⟩ := Bool.and_eq_true_iff.1 hsep
    refine ⟨hholder, fun hcompares => ?_⟩
    rw [s.isBinary_of_receiver hcompares] at hbinary
    exact List.all_eq_true.1 hbinary
  have hfound : AgreeOn kept (s.receiver kind m x).1 ((s.only kept).receiver kind m (x.filter kept.contains)).1 :=
    agreeOn_receiver hkept fun e hxe => (hsome e hxe).1
  have hargument : ∀ a ∈ (if kind = .static then args else args.drop 1).zip m.proto.parameters, ∀ xs ys : List Finding,
      s.argument m (if (s.receiver kind m x).2 then x else none) a.1 a.2 = .ok xs →
      (s.only kept).argument m (if ((s.only kept).receiver kind m (x.filter kept.contains)).2 then x.filter kept.contains else none)
        a.1 a.2 = .ok ys → AgreeOn kept xs ys := by
    intro a ha xs ys hxs hys
    cases x with
    | none =>
      rw [ite_self] at hxs
      rw [Option.filter_none, ite_self] at hys
      exact agreeOn_argument hkept hxs hys
    | some e =>
      by_cases he : e ∈ kept
      · rw [filter_of_mem he] at hys
        exact agreeOn_argument hkept hxs hys
      · rw [filter_of_not_mem he, ite_self] at hys
        cases hcompares : (s.receiver kind m (some e)).2 with
        | false =>
          rw [hcompares, if_neg Bool.false_ne_true] at hxs
          exact agreeOn_argument hkept hxs hys
        | true =>
          have hkind : kind ≠ .static := by
            rintro rfl
            cases hval
          rw [if_neg hkind] at ha
          rw [hcompares, if_pos rfl] at hxs
          exact agreeOn_argument_untracked hkept he (base_of_receiverEnum hval) ((hsome e rfl).2 hcompares a ha) hxs hys
  split at hx
  · next hcheck =>
    rw [if_pos hcheck] at hy
    obtain ⟨xs', hx', hx⟩ := bind_eq_ok.1 hx
    obtain ⟨ys', hy', hy⟩ := bind_eq_ok.1 hy
    cases hx
    cases hy
    exact hfound.append (agreeOn_nullCheck hkept hx' hy')
  · next hcheck =>
    rw [if_neg hcheck] at hy
    obtain ⟨xss, hxss, hx⟩ := bind_eq_ok.1 hx
    obtain ⟨yss, hyss, hy⟩ := bind_eq_ok.1 hy
    cases hx
    cases hy
    exact hfound.append (agreeOn_flatten hargument hxss hyss)

theorem accessedEnum_only {f : FieldRef} {object : ValueId} {x : Option Descriptor}
    (hsep : s.separatesAccess f object = true) (h : s.accessedEnum f object = .ok x) :
    (s.only kept).accessedEnum f object = .ok (x.filter kept.contains) := by
  obtain ⟨y, hval, h⟩ := bind_eq_ok.1 h
  cases h
  refine bind_eq_ok.2 ⟨_, valueEnum_only hkept hval, congrArg Except.ok ?_⟩
  unfold separatesAccess at hsep
  rw [hval] at hsep
  cases y with
  | none => exact enumOf_only hkept f.holder
  | some e =>
    by_cases he : e ∈ kept
    · change ((some e).filter kept.contains <|> _) = (some e).filter kept.contains
      rw [filter_of_mem he]
      rfl
    · change ((some e).filter kept.contains <|> _) = (some e).filter kept.contains
      rw [filter_of_not_mem he]
      exact enumOf_only_eq_none hkept he hsep

theorem agreeOn_newInstance (t : Descriptor) :
    AgreeOn kept (if s.tracked.contains t && !s.initializes t then [.rejects t (.unexpectedNewInstance s.method.ref)] else [])
      (if kept.contains t && !s.initializes t then [.rejects t (.unexpectedNewInstance s.method.ref)] else []) := by
  by_cases ht : t ∈ kept
  · rw [TreeSet.mem_iff_contains.1 ht, TreeSet.mem_iff_contains.1 (hkept t ht)]
    exact AgreeOn.refl kept _
  · rw [Bool.eq_false_iff.2 ht, Bool.false_and, if_neg Bool.false_ne_true]
    refine Silent.agreeOn ?_ silent_nil
    split
    · intro f hf
      rwa [List.mem_singleton.1 hf]
    · exact silent_nil

/-- **Operations.** -/
theorem agreeOn_operation {dest : Option ValueId} {op : Op} (hsep : s.separates op = true)
    (hx : s.operation dest op = .ok xs) (hy : (s.only kept).operation dest op = .ok ys) : AgreeOn kept xs ys := by
  cases op with
  | constClass t =>
    cases hx
    cases hy
    rw [enumOf_only hkept]
    exact agreeOn_map (fun _ => rfl) _
  | constHandle h =>
    cases hx
    cases hy
    exact agreeOn_escapeAll hkept _
  | constMethodType p =>
    cases hx
    cases hy
    exact agreeOn_escapeAll hkept _
  | newInstance t =>
    cases hx
    cases hy
    exact agreeOn_newInstance hkept t
  | arrayPut array index value =>
    obtain ⟨t, ht, hx⟩ := bind_eq_ok.1 hx
    obtain ⟨t', ht', hy⟩ := bind_eq_ok.1 hy
    cases ht.symm.trans ht'
    obtain ⟨actual, hactual, hx⟩ := bind_eq_ok.1 hx
    obtain ⟨actual', hactual', hy⟩ := bind_eq_ok.1 hy
    cases hactual.symm.trans hactual'
    split at hx
    · next heq =>
      rw [if_pos heq] at hy
      cases hx
      cases hy
      exact AgreeOn.refl kept _
    · next hne =>
      rw [if_neg hne] at hy
      cases hx
      cases hy
      rw [List.map_append, List.map_append, enumOf_only hkept]
      refine (agreeOn_map (fun _ => rfl) _).append ?_
      change AgreeOn kept (List.map _ (if s.defs.isNull value = true then none else _).toList)
        (List.map _ (if s.defs.isNull value = true then none else _).toList)
      split
      · exact AgreeOn.refl kept _
      · rw [enumOf_only hkept]
        exact agreeOn_map (fun _ => rfl) _
  | staticGet f =>
    cases hx
    cases hy
    exact agreeOn_staticField hkept f false
  | staticPut f value =>
    obtain ⟨xs', hflow, hx⟩ := bind_eq_ok.1 hx
    obtain ⟨ys', hflow', hy⟩ := bind_eq_ok.1 hy
    cases hx
    cases hy
    exact (agreeOn_flow hkept hflow hflow').append (agreeOn_staticField hkept f true)
  | instanceGet f object =>
    rw [instanceGet_eq] at hx hy
    obtain ⟨x, haccessed, hx⟩ := bind_eq_ok.1 hx
    obtain ⟨x', haccessed', hy⟩ := bind_eq_ok.1 hy
    cases (accessedEnum_only hkept hsep haccessed).symm.trans haccessed'
    cases hx
    cases hy
    exact agreeOn_elim (fun _ _ => enum_of_mem_readFindings) x
  | instancePut f object value =>
    obtain ⟨xs', hflow, hx⟩ := bind_eq_ok.1 hx
    obtain ⟨ys', hflow', hy⟩ := bind_eq_ok.1 hy
    obtain ⟨x, haccessed, hx⟩ := bind_eq_ok.1 hx
    obtain ⟨x', haccessed', hy⟩ := bind_eq_ok.1 hy
    cases (accessedEnum_only hkept hsep haccessed).symm.trans haccessed'
    cases hx
    cases hy
    exact (agreeOn_flow hkept hflow hflow').append (agreeOn_map (fun _ => rfl) x)
  | invoke kind m args isInterface => exact agreeOn_invoke hkept hsep hx hy
  | invokeCustom site args =>
    obtain ⟨passed, hpassed, hx⟩ := bind_eq_ok.1 hx
    obtain ⟨passed', hpassed', hy⟩ := bind_eq_ok.1 hy
    cases hpassed.symm.trans hpassed'
    cases hx
    cases hy
    exact agreeOn_escapeAll hkept _
  | checkCast t value => exact agreeOn_flow hkept hx hy
  | instanceOf t value =>
    obtain ⟨x, hval, hx⟩ := bind_eq_ok.1 hx
    obtain ⟨x', hval', hy⟩ := bind_eq_ok.1 hy
    cases (valueEnum_only hkept hval).symm.trans hval'
    cases hx
    cases hy
    rw [List.map_append, List.map_append, enumOf_only hkept]
    exact (agreeOn_map (fun _ => rfl) _).append (agreeOn_map (fun _ => rfl) _)
  | _ =>
    cases hx
    cases hy
    exact AgreeOn.refl kept _

/-- Both scans look at the enum of the right operand. -/
theorem agreeOn_rightOperand {lhs : ValueId} {l r : Descriptor} (hl : s.body.typeOf lhs = .ok l)
    (hkeeps : ∀ a b, s.enumOf l = some a → s.enumOf r = some b → a ∈ kept → b ∈ kept)
    (hx : (if (s.enumOf r).isSome && !s.defs.isNull lhs then s.flow lhs r else return []) = .ok xs)
    (hy : (if ((s.enumOf r).filter kept.contains).isSome && !s.defs.isNull lhs then (s.only kept).flow lhs r else return []) = .ok ys) :
    AgreeOn kept xs ys := by
  cases hR : s.enumOf r with
  | none =>
    rw [hR] at hx hy
    cases hx
    cases hy
    exact AgreeOn.refl kept _
  | some b =>
    rw [hR] at hx hy
    by_cases hb : b ∈ kept
    · rw [filter_of_mem hb] at hy
      split at hx
      · next hlhs =>
        rw [if_pos hlhs] at hy
        exact agreeOn_flow hkept hx hy
      · next hlhs =>
        rw [if_neg hlhs] at hy
        cases hx
        cases hy
        exact AgreeOn.refl kept _
    · rw [filter_of_not_mem hb] at hy
      cases hy
      refine Silent.agreeOn ?_ silent_nil
      split at hx
      · refine silent_flow hl (fun a ha hmem => hb (hkeeps a b ha hR hmem)) (fun e he => ?_) hx
        cases hR.symm.trans he
        exact hb
      · cases hx
        exact silent_nil

/-- The first scan looks at the enum of the left operand, and the second at that of the right one. -/
theorem agreeOn_operands {lhs rhs : ValueId} {l r a : Descriptor} (hl : s.body.typeOf lhs = .ok l)
    (hr : s.body.typeOf rhs = .ok r) (hL : s.enumOf l = some a) (ha : a ∉ kept)
    (hnull : ∀ b ∈ kept, s.enumOf r = some b → s.defs.isNull lhs = false ∧ s.defs.isNull rhs = false)
    (hx : s.flow rhs l = .ok xs)
    (hy : (if ((s.enumOf r).filter kept.contains).isSome && !s.defs.isNull lhs then (s.only kept).flow lhs r else return []) = .ok ys) :
    AgreeOn kept xs ys := by
  by_cases hR : ∃ b ∈ kept, s.enumOf r = some b
  · obtain ⟨b, hb, hR⟩ := hR
    obtain ⟨hlhs, hrhs⟩ := hnull b hb hR
    have hne : r ≠ l := by
      rintro rfl
      cases hL.symm.trans hR
      exact ha hb
    rw [hR, filter_of_mem hb, hlhs] at hy
    have hxs : s.flow rhs l = .ok (s.escape (some b) ++ s.escape (some a)) := by
      unfold flow
      rw [hr, ok_bind, if_neg hne, hR, hL, hrhs]
      rfl
    have hys : (s.only kept).flow lhs r = .ok ((s.only kept).escape none ++ (s.only kept).escape (some b)) := by
      unfold flow
      change s.body.typeOf lhs >>= _ = _
      rw [hl, ok_bind, if_neg hne.symm, enumOf_only hkept, enumOf_only hkept, hR, hL, filter_of_mem hb, filter_of_not_mem ha]
      change pure (_ ++ if s.defs.isNull lhs = true then _ else _) = _
      rw [hlhs]
      rfl
    cases hxs.symm.trans hx
    cases hys.symm.trans hy
    intro f hf
    rw [List.mem_append, or_iff_left fun hmem => silent_escape ha f hmem hf]
    exact Iff.rfl
  · have hnone : (s.enumOf r).filter kept.contains = none := by
      cases hR' : s.enumOf r with
      | none => rfl
      | some b => exact filter_of_not_mem fun hb => hR ⟨b, hb, hR'⟩
    rw [hnone] at hy
    cases hy
    refine Silent.agreeOn (silent_flow hr (fun e he hmem => hR ⟨e, hmem, he⟩) (fun e he => ?_) hx) silent_nil
    cases hL.symm.trans he
    exact ha

/-- **Comparisons.** The enum of the left operand decides unless it is not tracked. -/
theorem agreeOn_comparison {kind : Comparison} {lhs rhs : ValueId} {target : BlockId}
    (hsep : s.separatesOperands lhs rhs = true) (hx : s.terminator (.branch kind .object lhs (some rhs) target) = .ok xs)
    (hy : (s.only kept).terminator (.branch kind .object lhs (some rhs) target) = .ok ys) : AgreeOn kept xs ys := by
  obtain ⟨l, hl, hx⟩ := bind_eq_ok.1 hx
  obtain ⟨l', hl', hy⟩ := bind_eq_ok.1 hy
  cases hl.symm.trans hl'
  obtain ⟨r, hr, hx⟩ := bind_eq_ok.1 hx
  obtain ⟨r', hr', hy⟩ := bind_eq_ok.1 hy
  cases hr.symm.trans hr'
  change (if ((s.only kept).enumOf l).isSome && !s.defs.isNull rhs then _
    else if ((s.only kept).enumOf r).isSome && !s.defs.isNull lhs then _ else _) = Except.ok ys at hy
  rw [enumOf_only hkept, enumOf_only hkept] at hy
  have hoperands (a b : Descriptor) (ha : s.enumOf l = some a) (hb : s.enumOf r = some b) (hne : a ≠ b) :
      s.defs.isNull lhs = false ∧ s.defs.isNull rhs = false := by
    have hlval : s.valueEnum lhs = .ok (some a) := bind_eq_ok.2 ⟨l, hl, congrArg Except.ok ha⟩
    have hrval : s.valueEnum rhs = .ok (some b) := bind_eq_ok.2 ⟨r, hr, congrArg Except.ok hb⟩
    unfold separatesOperands at hsep
    rw [hlval, hrval] at hsep
    simpa [hne] using hsep
  cases hL : s.enumOf l with
  | none =>
    rw [hL] at hx hy
    exact agreeOn_rightOperand hkept hl (fun a b ha _ _ => by cases hL.symm.trans ha) hx hy
  | some a =>
    by_cases ha : a ∈ kept
    · rw [hL] at hx
      rw [hL, filter_of_mem ha] at hy
      split at hx
      · next hrhs =>
        rw [if_pos hrhs] at hy
        exact agreeOn_flow hkept hx hy
      · next hrhs =>
        rw [if_neg hrhs] at hy
        refine agreeOn_rightOperand hkept hl (fun a' b ha' hb hmem => ?_) hx hy
        cases hL.symm.trans ha'
        by_contra hbmem
        have hnull := (hoperands a b hL hb fun heq => hbmem (heq ▸ hmem)).2
        rw [hnull] at hrhs
        exact hrhs rfl
    · rw [hL] at hx
      rw [hL, filter_of_not_mem ha] at hy
      split at hx
      · exact agreeOn_operands hkept hl hr hL ha (fun b hb hR => hoperands a b hL hR fun heq => ha (heq ▸ hb)) hx hy
      · refine agreeOn_rightOperand hkept hl (fun a' b ha' hb hmem => ?_) hx hy
        cases hL.symm.trans ha'
        exact absurd hmem ha

/-- **Terminators.** -/
theorem agreeOn_terminator {t : Terminator} (hsep : s.separatesEnd t = true)
    (hx : s.terminator t = .ok xs) (hy : (s.only kept).terminator t = .ok ys) : AgreeOn kept xs ys := by
  cases t with
  | ret value =>
    cases value with
    | none =>
      cases hx
      cases hy
      exact AgreeOn.refl kept _
    | some v => exact agreeOn_flow hkept hx hy
  | branch kind type lhs rhs target =>
    cases type with
    | object =>
      cases rhs with
      | none =>
        cases hx
        cases hy
        exact AgreeOn.refl kept _
      | some rhs => exact agreeOn_comparison hkept hsep hx hy
    | _ =>
      cases hx
      cases hy
      exact AgreeOn.refl kept _
  | _ =>
    cases hx
    cases hy
    exact AgreeOn.refl kept _

theorem agreeOn_phi {p : Phi} (hx : s.phi p = .ok xs) (hy : (s.only kept).phi p = .ok ys) :
    AgreeOn kept xs ys := by
  obtain ⟨t, ht, hx⟩ := bind_eq_ok.1 hx
  obtain ⟨t', ht', hy⟩ := bind_eq_ok.1 hy
  cases ht.symm.trans ht'
  obtain ⟨xss, hxss, hx⟩ := bind_eq_ok.1 hx
  obtain ⟨yss, hyss, hy⟩ := bind_eq_ok.1 hy
  cases hx
  cases hy
  exact agreeOn_flatten (fun v _ _ _ hv hv' => agreeOn_flow hkept hv hv') hxss hyss

theorem agreeOn_block {b : Block} (hops : ∀ i ∈ b.body, s.separates i.op = true)
    (hend : s.separatesEnd b.terminator = true) (hx : s.block b = .ok xs) (hy : (s.only kept).block b = .ok ys) :
    AgreeOn kept xs ys := by
  obtain ⟨phis, hphis, hx⟩ := bind_eq_ok.1 hx
  obtain ⟨phis', hphis', hy⟩ := bind_eq_ok.1 hy
  obtain ⟨ops, hopsx, hx⟩ := bind_eq_ok.1 hx
  obtain ⟨ops', hopsy, hy⟩ := bind_eq_ok.1 hy
  obtain ⟨last, hlast, hx⟩ := bind_eq_ok.1 hx
  obtain ⟨last', hlast', hy⟩ := bind_eq_ok.1 hy
  cases hx
  cases hy
  refine (AgreeOn.append ?_ ?_).append (agreeOn_terminator hkept hend hlast hlast')
  · exact agreeOn_flatten (fun p _ _ _ hp hp' => agreeOn_phi hkept hp hp') hphis hphis'
  · exact agreeOn_flatten (fun i hi _ _ hop hop' => agreeOn_operation hkept (hops i hi) hop hop') hopsx hopsy

end

end Site

/-- The body takes no value of one enum for a value of another. -/
def Separates (p : Program) (tracked : TypeSet) (m : MethodDef) (c : Body) : Prop :=
  let s : Site := ⟨p, tracked, m, c, .ofBody c, []⟩
  ∀ b ∈ c.blocks, (∀ i ∈ b.body, s.separates i.op = true) ∧ s.separatesEnd b.terminator = true

instance (p : Program) (tracked : TypeSet) (m : MethodDef) (c : Body) : Decidable (Separates p tracked m c) :=
  inferInstanceAs (Decidable (∀ b ∈ c.blocks,
    (∀ i ∈ b.body, Site.separates _ i.op = true) ∧ Site.separatesEnd _ b.terminator = true))

/-- **Two scans of a body find the same about the enums that both track.** -/
theorem agreeOn_ofMethod {p : Program} {tracked kept : TypeSet} (hkept : ∀ t ∈ kept, t ∈ tracked) {m : MethodDef} {c : Body}
    (hsep : Separates p tracked m c) {xs ys : List Finding} (hx : ofMethod p tracked m c = .ok xs)
    (hy : ofMethod p kept m c = .ok ys) : AgreeOn kept xs ys := by
  obtain ⟨counts, hcounts, hx⟩ := bind_eq_ok.1 hx
  obtain ⟨counts', hcounts', hy⟩ := bind_eq_ok.1 hy
  cases hcounts.symm.trans hcounts'
  obtain ⟨xss, hxss, hx⟩ := bind_eq_ok.1 hx
  obtain ⟨yss, hyss, hy⟩ := bind_eq_ok.1 hy
  cases hx
  cases hy
  let s : Site := ⟨p, tracked, m, c, .ofBody c, counts⟩
  exact agreeOn_flatten (fun b hb _ _ hbx hby => s.agreeOn_block hkept (hsep b hb).1 (hsep b hb).2 hbx hby) hxss hyss

/-! ### All bodies -/

/-- The method has a body, as a scan sees it. -/
structure HasBody (p : Program) (c : ClassDef) (m : MethodDef) (body : Body) : Prop where
  isProgram : c ∈ p.programClasses
  mem : m ∈ c.methods
  decoded : m.decoded = .ok (some body)

/-- The scan leaves the method out, for unboxing the enum that has it would replace it. -/
def leavesOut (tracked : TypeSet) (c : ClassDef) (m : MethodDef) : Bool := tracked.contains c.type && m.isReplacedInEnum c.type

/-- The part of a scan that looks at one method. -/
def scanMethod (p : Program) (tracked : TypeSet) (c : ClassDef) (m : MethodDef) : Outcome EnumError (List Finding) := do
  if leavesOut tracked c m then return []
  match ← m.decoded with
  | none => return []
  | some body => ofMethod p tracked m body

variable {p : Program} {tracked kept : TypeSet} {c : ClassDef} {m : MethodDef} {body : Body} {found found' : List Finding}

theorem exists_of_scan {t : Descriptor} (ht : t ∈ tracked) (h : scan p tracked = .ok found) :
    ∃ fss, (p.programClasses.flatMap fun c => c.methods.map fun m => (c, m)).mapM (fun x => scanMethod p tracked x.1 x.2) = .ok fss ∧
      found = fss.flatten := by
  unfold scan at h
  rw [TreeSet.isEmpty_eq_false_of_contains ht] at h
  obtain ⟨fss, hfss, h⟩ := bind_eq_ok.1 h
  cases h
  exact ⟨fss, hfss, rfl⟩

theorem mem_pairs :
    (c, m) ∈ (p.programClasses.flatMap fun c => c.methods.map fun m => (c, m)) ↔ c ∈ p.programClasses ∧ m ∈ c.methods := by
  simp only [List.mem_flatMap, List.mem_map, Prod.mk.injEq]
  constructor
  · rintro ⟨d, hd, n, hn, rfl, rfl⟩
    exact ⟨hd, hn⟩
  · rintro ⟨hc, hm⟩
    exact ⟨c, hc, m, hm, rfl, rfl⟩

theorem scanMethod_eq_ok_iff {fs : List Finding} (hdecoded : m.decoded = .ok (some body)) (hout : leavesOut tracked c m = false) :
    scanMethod p tracked c m = .ok fs ↔ ofMethod p tracked m body = .ok fs := by
  unfold scanMethod
  rw [hout, if_neg Bool.false_ne_true, hdecoded]
  exact Outcome.lift_eq_ok

/-- A scan that ends looks at every body that it does not leave out. -/
theorem exists_ofMethod_of_scan {t : Descriptor} (ht : t ∈ tracked) (h : scan p tracked = .ok found) (hbody : HasBody p c m body)
    (hout : leavesOut tracked c m = false) : ∃ fs, ofMethod p tracked m body = .ok fs := by
  obtain ⟨fss, hfss, -⟩ := exists_of_scan ht h
  obtain ⟨fs, -, hfs⟩ := exists_of_mem_left (mapM_eq_ok_iff.1 hfss) (mem_pairs.2 ⟨hbody.isProgram, hbody.mem⟩)
  exact ⟨fs, (scanMethod_eq_ok_iff hbody.decoded hout).1 hfs⟩

/-- **What a scan finds.** -/
theorem mem_scan_iff {t : Descriptor} (ht : t ∈ tracked) (h : scan p tracked = .ok found) {f : Finding} :
    f ∈ found ↔ ∃ c m body fs, HasBody p c m body ∧ leavesOut tracked c m = false ∧ ofMethod p tracked m body = .ok fs ∧
      f ∈ fs := by
  obtain ⟨fss, hfss, rfl⟩ := exists_of_scan ht h
  have hforall := mapM_eq_ok_iff.1 hfss
  rw [List.mem_flatten]
  constructor
  · rintro ⟨fs, hfs, hf⟩
    obtain ⟨⟨c, m⟩, hpair, hscan⟩ := exists_of_mem_left hforall.flip hfs
    obtain ⟨hc, hm⟩ := mem_pairs.1 hpair
    cases hout : leavesOut tracked c m with
    | true =>
      unfold scanMethod at hscan
      rw [hout] at hscan
      cases hscan
      cases hf
    | false =>
      have hscan' := hscan
      unfold scanMethod at hscan
      rw [hout, if_neg Bool.false_ne_true] at hscan
      obtain ⟨code, hdecoded, hscan⟩ := bind_eq_ok.1 hscan
      cases code with
      | none =>
        cases hscan
        cases hf
      | some body => exact ⟨c, m, body, fs, ⟨hc, hm, hdecoded⟩, hout, (scanMethod_eq_ok_iff hdecoded hout).1 hscan', hf⟩
  · rintro ⟨c, m, body, fs, hbody, hout, hfs, hf⟩
    obtain ⟨fs', hmem, hfs'⟩ := exists_of_mem_left hforall (mem_pairs.2 ⟨hbody.isProgram, hbody.mem⟩)
    cases hfs.symm.trans ((scanMethod_eq_ok_iff hbody.decoded hout).1 hfs')
    exact ⟨fs, hmem, hf⟩

/-- **Tracking fewer enums.** About those that are left the same is found as before, and what
    the bodies show that are no longer left out. -/
theorem mem_scan_of_fewer (hkept : ∀ t ∈ kept, t ∈ tracked) (hsep : ∀ c m body, HasBody p c m body → Separates p tracked m body)
    (h : scan p tracked = .ok found) (h' : scan p kept = .ok found') {f : Finding} (hf : f.enum ∈ kept) :
    f ∈ found' ↔ f ∈ found ∨ ∃ c m body fs, HasBody p c m body ∧ leavesOut tracked c m = true ∧ leavesOut kept c m = false ∧
      ofMethod p kept m body = .ok fs ∧ f ∈ fs := by
  rw [mem_scan_iff hf h', mem_scan_iff (hkept _ hf) h]
  constructor
  · rintro ⟨c, m, body, ys, hbody, hout', hys, hmem⟩
    cases hout : leavesOut tracked c m with
    | true => exact .inr ⟨c, m, body, ys, hbody, hout, hout', hys, hmem⟩
    | false =>
      obtain ⟨xs, hxs⟩ := exists_ofMethod_of_scan (hkept _ hf) h hbody hout
      have hagree := agreeOn_ofMethod hkept (hsep c m body hbody) hxs hys
      exact .inl ⟨c, m, body, xs, hbody, hout, hxs, (hagree f hf).2 hmem⟩
  · rintro (⟨c, m, body, xs, hbody, hout, hxs, hmem⟩ | ⟨c, m, body, ys, hbody, -, hout', hys, hmem⟩)
    · have hout' : leavesOut kept c m = false := by
        refine Bool.eq_false_iff.2 fun htrue => ?_
        obtain ⟨hctype, hreplaced⟩ := Bool.and_eq_true_iff.1 htrue
        rw [leavesOut, hreplaced, TreeSet.mem_iff_contains.1 (hkept _ hctype)] at hout
        cases hout
      obtain ⟨ys, hys⟩ := exists_ofMethod_of_scan hf h' hbody hout'
      have hagree := agreeOn_ofMethod hkept (hsep c m body hbody) hxs hys
      exact ⟨c, m, body, ys, hbody, hout', hys, (hagree f hf).1 hmem⟩
    · exact ⟨c, m, body, ys, hbody, hout', hys, hmem⟩

end UseSites

end DexShrinker
