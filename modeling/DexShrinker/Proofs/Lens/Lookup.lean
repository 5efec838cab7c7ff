/-
  DexShrinker/Proofs/Lens/Lookup.lean
  ===================================
  **Lookups through one layer.**

  A lens sees nothing between itself and itself, and only the layer that was put on top of
  a lens between the two. Looking up a method through one layer is the layer's own map. It
  cannot fail, because there are no earlier changes that those of the layer could
  contradict. So looking something up through what a pass has recorded is the map of its
  moves (`Recorder.lookupType_of_build` and the others), whether there was anything to put
  on top of the lens or not.
-/
import DexShrinker.Lens.Lookup
import DexShrinker.Lens.Recorder
import DexShrinker.Proofs.Descriptor
import DexShrinker.Proofs.Outcome

namespace DexShrinker

open Std

namespace ProtoChanges

theorem exists_none_combine (newer : ProtoChanges) : ∃ c, none.combine newer = .ok c := by
  have harguments : none.combineArguments newer =
      .ok (newer.arguments.toList.foldl (fun arguments x => arguments.insert (formerIndex none.removed x.1) x.2) none.arguments) := by
    apply foldlM_eq_ok
    intro x _ arguments
    have hnone : none.argument? (formerIndex none.removed x.1) = Option.none := by simp [argument?, none]
    simp only [hnone]
    rfl
  rw [combine, harguments]
  exact ⟨_, rfl⟩

/-- Changes that only add parameters come through. -/
theorem none_combine_extra (extra : List ExtraParameter) : none.combine { extra := extra } = .ok { extra := extra } := rfl

end ProtoChanges

namespace Lens

theorem forward_self (l : Lens) : l.forward l = [] := by
  simp [forward]

theorem forward_push (l : Lens) (n : Renaming) : (l.push (.renames n)).forward l = [n] := by
  have hdepth : (l.push (.renames n)).depth - l.depth = 1 := by simp [depth, push]
  rw [forward, hdepth]
  simp [push, Layer.isClear, Layer.moves?]

theorem settleSuper_kind (context : Option MethodRef) (m : MethodLookup) : (settleSuper context m).kind =
    if m.kind = .super ∧ context.any (·.holder == m.ref.holder) then .direct else m.kind := by
  unfold settleSuper
  split <;> rfl

@[simp] theorem settleSuper_ref (context : Option MethodRef) (m : MethodLookup) : (settleSuper context m).ref = m.ref := by
  unfold settleSuper
  split <;> rfl

@[simp] theorem settleSuper_changes (context : Option MethodRef) (m : MethodLookup) :
    (settleSuper context m).changes = m.changes := by
  unfold settleSuper
  split <;> rfl

theorem lookupMethod_self (l : Lens) (m : MethodRef) (context : Option MethodRef) (kind : InvokeKind) :
    ∃ result, l.lookupMethod m context kind l = .ok result ∧ result.ref = m := by
  refine ⟨settleSuper context ⟨m, kind, .none⟩, ?_, settleSuper_ref _ _⟩
  rw [lookupMethod, forward_self]
  rfl

theorem lookupMethod_push (l : Lens) (n : Renaming) (m : MethodRef) (context : Option MethodRef) (kind : InvokeKind) :
    ∃ result, (l.push (.renames n)).lookupMethod m context kind l = .ok result ∧ result.ref = n.mapMethod m := by
  obtain ⟨changes, hchanges⟩ := ProtoChanges.exists_none_combine (n.changesForCall m (n.mapMethod m))
  refine ⟨settleSuper context ⟨n.mapMethod m, n.invokeKinds.getD (n.mapMethod m) kind, changes⟩, ?_, settleSuper_ref _ _⟩
  simp only [lookupMethod, forward_push, List.foldlM_cons, List.foldlM_nil, stepMethod, hchanges]
  rfl

end Lens

/-! ### What is not moved -/

namespace Renaming

variable {n : Renaming}

theorem mapClass_of_none {t : Descriptor} (h : n.types[t]? = none) : n.mapClass t = t := by
  rw [mapClass, TreeMap.getD_eq_getD_getElem?, h, Option.getD_none]

theorem mapType_of_none {t : Descriptor} (h : n.types[t.base]? = none) : n.mapType t = t := by
  unfold mapType Descriptor.mapBase
  split
  · next harray => rw [mapClass_of_none h, Descriptor.replaceBase_base harray]
  · next harray =>
    rw [Descriptor.base, if_neg harray] at h
    exact mapClass_of_none h

theorem mapHolder_of_none {t : Descriptor} (h : n.types[t]? = none) : n.mapHolder t = t := by
  rw [mapHolder, mapClass_of_none h, ite_self]

theorem mapProto_of_none {p : Prototype} (h : ∀ t ∈ p.types, n.types[t.base]? = none) : n.mapProto p = p := by
  have hreturn := mapType_of_none (h p.returnType List.mem_cons_self)
  have hparameters : p.parameters.map n.mapType = p.parameters :=
    (List.map_congr_left fun t ht => mapType_of_none (h t (List.mem_cons_of_mem _ ht))).trans (List.map_id _)
  rw [mapProto, Prototype.mapTypes, hreturn, hparameters]

end Renaming

/-! ### Lookups through what a pass has recorded -/

namespace Recorder

variable {r : Recorder} {l l' : Lens}

theorem lookupType_of_build (h : r.build l = .ok l') (t : Descriptor) : l'.lookupType t l = r.moves.mapType t := by
  unfold build at h
  split at h
  · cases h
  · cases h
    split
    · next hempty =>
      simp only [isEmpty, Bool.and_eq_true] at hempty
      have hno (t : Descriptor) : r.moves.types[t]? = none := TreeMap.getElem?_of_isEmpty hempty.1.1.1.1.1.1.1.1
      rw [Lens.lookupType, Lens.forward_self, List.foldl_nil, Renaming.mapType_of_none (hno _)]
    · rw [Lens.lookupType, Lens.forward_push]
      rfl

theorem lookupField_of_build (h : r.build l = .ok l') (f : FieldRef) : (l'.lookupField f l).ref = r.moves.mapField f := by
  unfold build at h
  split at h
  · cases h
  · cases h
    split
    · next hempty =>
      simp only [isEmpty, Bool.and_eq_true] at hempty
      have hno (t : Descriptor) : r.moves.types[t]? = none := TreeMap.getElem?_of_isEmpty hempty.1.1.1.1.1.1.1.1
      rw [Lens.lookupField, Lens.forward_self, List.foldl_nil, Renaming.mapField, TreeMap.getD_of_isEmpty hempty.1.1.1.1.1.1.1.2,
        Renaming.mapHolder_of_none (hno _), Renaming.mapType_of_none (hno _)]
    · rw [Lens.lookupField, Lens.forward_push]
      rfl

/-- If nothing was recorded, methods stay. -/
theorem mapMethod_of_isEmpty (h : r.isEmpty = true) (m : MethodRef) : r.moves.mapMethod m = m := by
  simp only [isEmpty, Bool.and_eq_true] at h
  obtain ⟨⟨⟨⟨⟨⟨⟨⟨htypes, -⟩, hmethods⟩, -⟩, -⟩, -⟩, -⟩, -⟩, -⟩ := h
  have hno (t : Descriptor) : r.moves.types[t]? = none := TreeMap.getElem?_of_isEmpty htypes
  rw [Renaming.mapMethod, TreeMap.getD_of_isEmpty hmethods, Renaming.mapHolder_of_none (hno _), Renaming.mapProto_of_none fun t _ => hno _]

theorem exists_lookup_of_build (h : r.build l = .ok l') (m : MethodRef)
    (context : Option MethodRef) (kind : InvokeKind) :
    r.conflict = none ∧ ∃ found, l'.lookupMethod m context kind l = .ok found ∧ found.ref = r.moves.mapMethod m := by
  unfold build at h
  split at h
  · cases h
  · next hconflict =>
    refine ⟨hconflict, ?_⟩
    cases h
    split
    · next hempty =>
      obtain ⟨found, hfound, href⟩ := l.lookupMethod_self m context kind
      exact ⟨found, hfound, href.trans (mapMethod_of_isEmpty hempty m).symm⟩
    · exact l.lookupMethod_push r.layer m context kind

/-- A direct call that only gets more parameters. -/
theorem lookupMethod_of_build (h : r.build l = .ok l') {m : MethodRef} (hkind : r.moves.invokeKinds[r.moves.mapMethod m]? = none)
    {extra : List ExtraParameter} (hchanges : r.moves.changesForCall m (r.moves.mapMethod m) = { extra := extra })
    (context : Option MethodRef) : l'.lookupMethod m context .direct l = .ok ⟨r.moves.mapMethod m, .direct, { extra := extra }⟩ := by
  have hsettle (changes : ProtoChanges) : Lens.settleSuper context ⟨r.moves.mapMethod m, .direct, changes⟩ =
      ⟨r.moves.mapMethod m, .direct, changes⟩ := by
    simp [Lens.settleSuper]
  unfold build at h
  split at h
  · cases h
  · cases h
    split
    · next hempty =>
      rw [mapMethod_of_isEmpty hempty] at hchanges hsettle ⊢
      simp only [isEmpty, Bool.and_eq_true] at hempty
      rw [← hchanges, Renaming.changesForCall, TreeMap.getElem?_of_isEmpty hempty.1.1.1.1.1.2, TreeMap.getElem?_of_isEmpty hempty.1.1.1.1.2,
        Lens.lookupMethod, Lens.forward_self]
      exact congrArg Except.ok (hsettle .none)
    · have hstep : Lens.stepMethod ⟨m, .direct, .none⟩ r.layer = .ok ⟨r.moves.mapMethod m, .direct, { extra := extra }⟩ := by
        have hchanges' : r.layer.changesForCall m (r.layer.mapMethod m) = { extra := extra } := hchanges
        have hkind' : r.layer.invokeKinds.getD (r.layer.mapMethod m) .direct = .direct := by
          rw [TreeMap.getD_eq_getD_getElem?]
          exact congrArg (Option.getD · .direct) hkind
        rw [Lens.stepMethod, hchanges', ProtoChanges.none_combine_extra, hkind']
        rfl
      rw [Lens.lookupMethod, Lens.forward_push, List.foldlM_cons, hstep]
      exact congrArg Except.ok (hsettle _)

end Recorder

end DexShrinker
