/-
  DexShrinker/Proofs/Unboxing/Casts.lean
  ======================================
  **Taking casts to enums out of a body.**

  What a cast to an enum defines is read no more, and in its place is read what went into the first
  of a chain of casts (`Enters`). The way back through the casts keeps no record of where it has
  been, and nothing keeps a body from casting a value to itself, or two values to each other, so the
  way back need not end: casts are taken out exactly if no chain of them comes round
  (`removeCasts_ends`). This holds of all bodies that can be unpacked, since what they define they
  define once.
-/
import DexShrinker.Proofs.Chains
import DexShrinker.Proofs.Outcome
import DexShrinker.Proofs.Packed.Defining
import DexShrinker.Unboxing.Lowering
import Mathlib.Data.List.Flatten

namespace DexShrinker

open Std
open Relation (ReflTransGen TransGen)

/-! ### Reading other values in turn -/

theorem Op.mapReads_mapReads (f g : ValueId → ValueId) (op : Op) : (op.mapReads f).mapReads g = op.mapReads (g ∘ f) := by
  cases op <;> simp [mapReads]

theorem Op.mapReads_id (op : Op) : op.mapReads id = op := by
  cases op <;> simp [mapReads]

theorem Terminator.mapReads_mapReads (f g : ValueId → ValueId) (t : Terminator) : (t.mapReads f).mapReads g = t.mapReads (g ∘ f) := by
  cases t <;> simp [mapReads]

theorem Terminator.mapReads_id (t : Terminator) : t.mapReads id = t := by
  cases t <;> simp [mapReads]

theorem Block.mapReads_mapReads (f g : ValueId → ValueId) (b : Block) : (b.mapReads f).mapReads g = b.mapReads (g ∘ f) := by
  simp [mapReads, Op.mapReads_mapReads, Terminator.mapReads_mapReads, Function.comp_def]

theorem Block.mapReads_id (b : Block) : b.mapReads id = b := by
  simp [mapReads, Op.mapReads_id, Terminator.mapReads_id]

namespace UnboxedEnums

/-- The instruction makes `v` out of `w` by a cast to an enum. -/
def Casts (u : UnboxedEnums) (i : Instr) (v w : ValueId) : Prop :=
  ∃ t, i.dest = some v ∧ i.op = .checkCast t w ∧ u.isUnboxed t = true

/-- In the body `v` is made out of `w` by a cast to an enum. -/
def CastOf (u : UnboxedEnums) (c : Body) (v w : ValueId) : Prop := ∃ b ∈ c.blocks, ∃ i ∈ b.body, u.Casts i v w

/-- A chain of casts comes from `w`, which is no result of a cast, to `v`. -/
structure Enters (u : UnboxedEnums) (c : Body) (v w : ValueId) : Prop where
  way : ReflTransGen (u.CastOf c) v w
  first : ∀ x, ¬ u.CastOf c w x

/-- The body without casts to enums, in which `source v` is read in place of `v`. -/
def withoutCasts (u : UnboxedEnums) (c : Body) (source : ValueId → ValueId) : Body :=
  { c with blocks := c.blocks.map fun b => Block.mapReads source { b with body := b.body.filter (!u.isCast ·) } }

variable {u : UnboxedEnums} {c d : Body} {i : Instr} {v w x : ValueId}

theorem isCast_iff : u.isCast i = true ↔ ∃ v w, u.Casts i v w := by
  obtain ⟨dest, op, line⟩ := i
  cases op <;> cases dest <;> simp [isCast, Casts]

/-- Whether an instruction is a cast does not depend on what it reads. -/
theorem isCast_mapReads (f : ValueId → ValueId) (i : Instr) : u.isCast { i with op := i.op.mapReads f } = u.isCast i := by
  obtain ⟨dest, op, line⟩ := i
  cases op <;> cases dest <;> rfl

/-- **No cast is left.** -/
theorem isCast_withoutCasts (u : UnboxedEnums) (c : Body) (source : ValueId → ValueId) :
    ∀ b ∈ (u.withoutCasts c source).blocks, ∀ i ∈ b.body, u.isCast i = false := by
  intro b hb i hi
  obtain ⟨b', -, rfl⟩ := List.mem_map.1 hb
  obtain ⟨j, hj, rfl⟩ := List.mem_map.1 hi
  rw [isCast_mapReads]
  simpa using (List.mem_filter.1 hj).2

/-! ### Links from results of casts to what they cast -/

/-- The links after one more instruction. -/
def link (u : UnboxedEnums) (aliases : TreeMap ValueId ValueId) (i : Instr) : TreeMap ValueId ValueId :=
  match i.op, i.dest with
  | .checkCast t v, some d => if u.isUnboxed t then aliases.insert d v else aliases
  | _, _ => aliases

theorem link_of_casts (h : u.Casts i v w) (aliases : TreeMap ValueId ValueId) : u.link aliases i = aliases.insert v w := by
  obtain ⟨t, hdest, hop, ht⟩ := h
  simp [link, hdest, hop, ht]

theorem link_of_not_isCast (h : u.isCast i = false) (aliases : TreeMap ValueId ValueId) : u.link aliases i = aliases := by
  obtain ⟨dest, op, line⟩ := i
  cases op <;> cases dest <;> first | rfl | exact if_neg (Bool.eq_false_iff.1 h)

/-- Every link is one of a cast. -/
theorem casts_of_foldl_link {is : List Instr} {aliases : TreeMap ValueId ValueId} (h : (is.foldl u.link aliases)[v]? = some w) :
    aliases[v]? = some w ∨ ∃ i ∈ is, u.Casts i v w := by
  induction is generalizing aliases with
  | nil => exact .inl h
  | cons i is ih =>
    rcases ih h with hv | ⟨j, hj, hcast⟩
    · cases hi : u.isCast i with
      | false => exact .inl (link_of_not_isCast hi aliases ▸ hv)
      | true =>
        obtain ⟨v', w', hcast⟩ := isCast_iff.1 hi
        rw [link_of_casts hcast, TreeMap.getElem?_insert] at hv
        split at hv
        · next heq =>
          obtain rfl := Nat.compare_eq_eq.1 heq
          cases hv
          exact .inr ⟨i, List.mem_cons_self, hcast⟩
        · exact .inl hv
    · exact .inr ⟨j, List.mem_cons_of_mem i hj, hcast⟩

/-- The result of every cast has a link. -/
theorem mem_foldl_link {is : List Instr} {aliases : TreeMap ValueId ValueId} (h : v ∈ aliases ∨ ∃ i ∈ is, ∃ w, u.Casts i v w) :
    v ∈ is.foldl u.link aliases := by
  induction is generalizing aliases with
  | nil => simpa using h
  | cons i is ih =>
    refine ih ?_
    cases hi : u.isCast i with
    | false =>
      rw [link_of_not_isCast hi]
      refine h.imp_right ?_
      rintro ⟨j, hj, w, hcast⟩
      rcases List.mem_cons.1 hj with rfl | hj
      · cases hi.symm.trans (isCast_iff.2 ⟨v, w, hcast⟩)
      · exact ⟨j, hj, w, hcast⟩
    | true =>
      obtain ⟨v', w', hcast'⟩ := isCast_iff.1 hi
      rw [link_of_casts hcast', TreeMap.mem_insert]
      rcases h with h | ⟨j, hj, w, hcast⟩
      · exact .inl (.inr h)
      · rcases List.mem_cons.1 hj with rfl | hj
        · have heq : v' = v := Option.some.inj (hcast'.choose_spec.1.symm.trans hcast.choose_spec.1)
          exact .inl (.inl (by simp [heq]))
        · exact .inr ⟨j, hj, w, hcast⟩

theorem castOf_of_getElem? (h : (u.casts c)[v]? = some w) : u.CastOf c v w := by
  rcases casts_of_foldl_link h with h | ⟨i, hi, hcast⟩
  · simp at h
  · obtain ⟨b, hb, hi⟩ := List.mem_flatMap.1 hi
    exact ⟨b, hb, i, hi, hcast⟩

theorem CastOf.mem_casts (h : u.CastOf c v w) : v ∈ u.casts c := by
  obtain ⟨b, hb, i, hi, hcast⟩ := h
  exact mem_foldl_link (.inr ⟨i, List.mem_flatMap.2 ⟨b, hb, hi⟩, w, hcast⟩)

/-- Where every value is defined once, a value is made out of one other at most. -/
theorem rightUnique_castOf (h : (c.blocks.flatMap Block.defs).Nodup) : Relator.RightUnique (u.CastOf c) := by
  rintro v w x ⟨b, hb, i, hi, t, hdest, hop, -⟩ ⟨b', hb', i', hi', t', hdest', hop', -⟩
  have hbodies : ((c.blocks.flatMap Block.body).filterMap Instr.dest).Nodup := by
    rw [List.filterMap_flatMap]
    exact h.sublist (.flatMap_right _ fun b _ => List.sublist_append_right _ _)
  have hsame : i = i' := by
    rw [List.Nodup, List.pairwise_filterMap] at hbodies
    by_contra hne
    have hsymm : Std.Symm fun i i' : Instr => ∀ a ∈ i.dest, ∀ a' ∈ i'.dest, a ≠ a' := ⟨fun _ _ h a ha a' ha' => (h a' ha' a ha).symm⟩
    exact hbodies.forall (List.mem_flatMap.2 ⟨b, hb, hi⟩) (List.mem_flatMap.2 ⟨b', hb', hi'⟩) hne v hdest v hdest' rfl
  rw [hsame, hop'] at hop
  exact (Op.checkCast.inj hop).2.symm

/-! ### The way back -/

/-- Who gets an answer comes to what went in. -/
theorem enters_of_followCasts {fuel : Nat} (h : followCasts (u.casts c) fuel v = .ok w) : u.Enters c v w := by
  induction fuel generalizing v with
  | zero => cases h
  | succ fuel ih =>
    rw [followCasts] at h
    split at h
    · next x hx =>
      have hrest := ih h
      exact ⟨.head (castOf_of_getElem? hx) hrest.way, hrest.first⟩
    · next hnone =>
      cases h
      refine ⟨.refl, fun x hcast => ?_⟩
      rw [TreeMap.getElem?_eq_some_getElem hcast.mem_casts] at hnone
      cases hnone

/-- Who gets no answer has passed as many casts as may be. -/
theorem exists_chain_of_followCasts {fuel : Nat} {e : Fault} (h : followCasts (u.casts c) fuel v = .error e) :
    e = .diverges ∧ ∃ way : List ValueId, way.length = fuel ∧ (v :: way).IsChain (u.CastOf c) := by
  induction fuel generalizing v with
  | zero =>
    cases h
    exact ⟨rfl, [], rfl, .singleton v⟩
  | succ fuel ih =>
    rw [followCasts] at h
    split at h
    · next x hx =>
      obtain ⟨rfl, way, hlength, hway⟩ := ih h
      exact ⟨rfl, x :: way, by rw [List.length_cons, hlength], .cons_cons (castOf_of_getElem? hx) hway⟩
    · cases h

/-- No answer means that a chain of casts comes round. -/
theorem comesRound_of_followCasts {e : Fault} (h : followCasts (u.casts c) ((u.casts c).size + 1) v = .error e) :
    e = .diverges ∧ ∃ w, TransGen (u.CastOf c) w w := by
  obtain ⟨rfl, way, hlength, hway⟩ := exists_chain_of_followCasts h
  have hlinked : ∀ w x, u.CastOf c w x → w ∈ (u.casts c).keys := fun w x hcast => TreeMap.mem_keys.2 hcast.mem_casts
  obtain ⟨w, -, hround⟩ := comesRound_of_isChain hlinked hway (by rw [TreeMap.length_keys, hlength]; exact Nat.lt_succ_self _)
  exact ⟨rfl, w, hround⟩

theorem Enters.unique (hunique : Relator.RightUnique (u.CastOf c)) (h : u.Enters c v w) (h' : u.Enters c v x) : w = x := by
  rcases Relation.ReflTransGen.total_of_right_unique hunique h.way h'.way with hway | hway
  · exact ((ReflTransGen.cases_head hway).resolve_right fun ⟨y, hy, _⟩ => h.first y hy)
  · exact ((ReflTransGen.cases_head hway).resolve_right fun ⟨y, hy, _⟩ => h'.first y hy).symm

/-- What comes round has no entry. -/
theorem Enters.not_transGen (hunique : Relator.RightUnique (u.CastOf c)) (h : u.Enters c v w) : ¬ TransGen (u.CastOf c) v v := by
  intro hround
  obtain ⟨x, hx, -⟩ := TransGen.head'_iff.1 (transGen_self_of_reflTransGen hunique hround h.way)
  exact h.first x hx

/-! ### Taking casts out -/

/-- Replacing one value after the other comes to reading what each is replaced by, as this is none that is replaced. -/
theorem foldlM_replaceReads {follow : ValueId → Guarded ValueId} {source : ValueId → ValueId} {vs : List ValueId}
    (hfollow : ∀ v ∈ vs, follow v = .ok (source v)) (hout : ∀ v ∈ vs, source v ∉ vs) (c : Body) :
    vs.foldlM (fun (c : Body) v => do return c.replaceReads v (← follow v)) c =
      .ok { c with blocks := c.blocks.map (Block.mapReads fun v => if v ∈ vs then source v else v) } := by
  induction vs generalizing c with
  | nil =>
    have hid : (Block.mapReads fun v => if v ∈ [] then source v else v) = id := by
      funext b
      simp only [List.not_mem_nil, if_false]
      exact b.mapReads_id
    rw [hid, List.map_id]
    rfl
  | cons v vs ih =>
    obtain ⟨hv, hvs⟩ := List.forall_mem_cons.1 hfollow
    obtain ⟨hnot, hnots⟩ := List.forall_mem_cons.1 hout
    rw [List.foldlM_cons, hv, ok_bind]
    change List.foldlM _ (c.replaceReads v (source v)) vs = _
    rw [ih hvs fun w hw hmem => hnots w hw (List.mem_cons_of_mem v hmem)]
    simp only [Body.replaceReads, List.map_map]
    refine congrArg (fun f => Except.ok { c with blocks := c.blocks.map f }) (funext fun b => ?_)
    rw [Function.comp_apply, Block.mapReads_mapReads]
    congr 1
    funext w
    by_cases hw : w = v
    · have hsource : source v ∉ vs := fun hmem => hnot (List.mem_cons_of_mem v hmem)
      simp [hw, hsource]
    · simp [hw]

/-- **What is left when casts are taken out.** -/
theorem removeCasts_eq_ok {source : ValueId → ValueId}
    (h : ∀ v, followCasts (u.casts c) ((u.casts c).size + 1) v = .ok (source v)) : u.removeCasts c = .ok (u.withoutCasts c source) := by
  have hfirst (v : ValueId) : source v ∉ u.casts c := by
    intro hmem
    have henters := enters_of_followCasts (h v)
    exact henters.first _ (castOf_of_getElem? (TreeMap.getElem?_eq_some_getElem hmem))
  have hreads : (fun v => if v ∈ (u.casts c).keys then source v else v) = source := by
    funext v
    split
    · rfl
    · next hv =>
      have hnone : (u.casts c)[v]? = none := TreeMap.getElem?_eq_none fun hmem => hv (TreeMap.mem_keys.2 hmem)
      have hfollow := h v
      rw [followCasts, hnone] at hfollow
      exact Except.ok.inj hfollow
  unfold removeCasts
  rw [foldlM_replaceReads (fun v _ => h v) (fun v _ hmem => hfirst v (TreeMap.mem_keys.1 hmem)), hreads]
  simp only [withoutCasts, List.map_map]
  rfl

/-- Whoever takes casts out finds the way back from every value. -/
theorem exists_followCasts_of_removeCasts (h : u.removeCasts c = .ok d) (v : ValueId) :
    ∃ w, followCasts (u.casts c) ((u.casts c).size + 1) v = .ok w := by
  by_cases hv : v ∈ (u.casts c).keys
  · refine foldlM_establishes (P := fun _ => ∃ w, followCasts (u.casts c) ((u.casts c).size + 1) v = .ok w) hv ?_ ?_ h
    · intro _ _ hstep
      obtain ⟨w, hw, -⟩ := bind_eq_ok.1 hstep
      exact ⟨w, hw⟩
    · intro _ _ _ _ hw _
      exact hw
  · have hnone : (u.casts c)[v]? = none := TreeMap.getElem?_eq_none fun hmem => hv (TreeMap.mem_keys.2 hmem)
    exact ⟨v, by rw [followCasts, hnone]⟩

/-- A body from which casts were taken out. -/
theorem exists_source_of_removeCasts (h : u.removeCasts c = .ok d) :
    ∃ source : ValueId → ValueId, (∀ v, u.Enters c v (source v)) ∧ d = u.withoutCasts c source := by
  choose source hsource using exists_followCasts_of_removeCasts h
  refine ⟨source, fun v => enters_of_followCasts (hsource v), ?_⟩
  exact Except.ok.inj (h.symm.trans (removeCasts_eq_ok hsource))

/-- Nothing but a chain of casts that comes round keeps casts from being taken out. -/
theorem comesRound_of_removeCasts {e : Fault} (h : u.removeCasts c = .error e) : e = .diverges ∧ ∃ v, TransGen (u.CastOf c) v v := by
  obtain ⟨v, -, c', hstep⟩ := exists_of_foldlM_eq_error h
  cases hfollow : followCasts (u.casts c) ((u.casts c).size + 1) v with
  | ok w =>
    rw [hfollow] at hstep
    cases hstep
  | error e' =>
    rw [hfollow] at hstep
    cases hstep
    exact comesRound_of_followCasts hfollow

/-- **Taking casts to enums out of an unpacked body ends** if no chain of casts comes round. Then no cast is left, and the
    value that went into the chain is read in place of its results. A chain that comes round has no such value, and never ends. -/
theorem removeCasts_ends {p : PackedBody} {method : MethodRef} {isStatic : Bool} {types : List Descriptor} {c : Body}
    (h : p.unpack method isStatic types = .ok c) (u : UnboxedEnums) :
    ((∀ v, ¬ TransGen (u.CastOf c) v v) → ∃ d, u.removeCasts c = .ok d) ∧
      (∀ d, u.removeCasts c = .ok d → ∃ source : ValueId → ValueId, (∀ v, u.Enters c v (source v)) ∧ d = u.withoutCasts c source ∧
        ∀ b ∈ d.blocks, ∀ i ∈ b.body, u.isCast i = false) ∧
      (p.views.length ≤ UInt32.size → ∀ v, (∀ w w', u.Enters c v w → u.Enters c v w' → w = w') ∧
        (TransGen (u.CastOf c) v v → u.removeCasts c = .error .diverges ∧ ∀ w, ¬ u.Enters c v w)) := by
  refine ⟨fun hround => ?_, fun d hd => ?_, fun hsize v => ?_⟩
  · cases hd : u.removeCasts c with
    | ok d => exact ⟨d, rfl⟩
    | error e =>
      obtain ⟨-, v, hv⟩ := comesRound_of_removeCasts hd
      exact absurd hv (hround v)
  · obtain ⟨source, hsource, rfl⟩ := exists_source_of_removeCasts hd
    exact ⟨source, hsource, rfl, isCast_withoutCasts u c source⟩
  · have hunique := rightUnique_castOf (u := u) (PackedBody.nodup_defs_unpack hsize h)
    refine ⟨fun w w' hw hw' => hw.unique hunique hw', fun hround => ⟨?_, fun w hw => hw.not_transGen hunique hround⟩⟩
    cases hd : u.removeCasts c with
    | ok d =>
      obtain ⟨source, hsource, -⟩ := exists_source_of_removeCasts hd
      exact absurd hround ((hsource v).not_transGen hunique)
    | error e => rw [(comesRound_of_removeCasts hd).1]

namespace Sample

def enum : Descriptor := .ofBinaryName "p/E"

def enums : UnboxedEnums where
  classes := (∅ : TypeMap ClassDef).insert enum { type := enum, superclass := some .enumBase }
  shared := ⟨.ofBinaryName "p/Shared", 1⟩
  locals := ∅
  data := ∅

def method : MethodRef := ⟨.ofBinaryName "p/C", "main", .void⟩

/-- Null is cast twice and returned. -/
def chain : PackedBody where
  constants := [.type enum]
  bytes := [1, 41, 2, 0, 2, 41, 2, 0, 2, 97, 1, 2]
  argumentCount := 0
  instructionCount := 4
  lines := []
  handlers := ∅

def chainBody : Body where
  method := method
  isStatic := true
  arguments := []
  values := [⟨.object, .instruction⟩, ⟨enum, .instruction⟩, ⟨enum, .instruction⟩]
  blocks := [{
    body := [⟨some 0, .constNull, 0⟩, ⟨some 1, .checkCast enum 0, 0⟩, ⟨some 2, .checkCast enum 1, 0⟩]
    terminator := .ret (some 2) }]

/-- A value is cast to itself behind the return, in a block that nothing reaches. -/
def selfCast : PackedBody where
  constants := [.type enum]
  bytes := [8, 41, 2, 0, 0, 8]
  argumentCount := 0
  instructionCount := 3
  lines := []
  handlers := ∅

def selfCastBody : Body where
  method := method
  isStatic := true
  arguments := []
  values := [⟨enum, .instruction⟩]
  blocks := [{ terminator := .ret none }, { body := [⟨some 0, .checkCast enum 0, 0⟩], terminator := .ret none }]

end Sample

theorem removeCasts_ends_chain :
    Sample.chain.unpack Sample.method true [] = .ok Sample.chainBody ∧ Sample.chain.views.length ≤ UInt32.size ∧
      ∃ source : ValueId → ValueId, source 2 = 0 ∧ (∀ v, Sample.enums.Enters Sample.chainBody v (source v)) ∧
        Sample.enums.removeCasts Sample.chainBody = .ok (Sample.enums.withoutCasts Sample.chainBody source) := by
  have hunpack : Sample.chain.unpack Sample.method true [] = .ok Sample.chainBody := by decide +kernel
  have hsize : Sample.chain.views.length ≤ UInt32.size := by decide +kernel
  obtain ⟨-, hsound, hround⟩ := removeCasts_ends hunpack Sample.enums
  cases hd : Sample.enums.removeCasts Sample.chainBody with
  | error e =>
    have hok : (Sample.enums.removeCasts Sample.chainBody).isOk = true := by decide +kernel
    rw [hd] at hok
    cases hok
  | ok d =>
    obtain ⟨source, hsource, rfl, -⟩ := hsound d hd
    have hback : followCasts (Sample.enums.casts Sample.chainBody) 3 2 = .ok 0 := by decide +kernel
    exact ⟨hunpack, hsize, source, (hround hsize 2).1 _ _ (hsource 2) (enters_of_followCasts hback), hsource, rfl⟩

/-- A body that can be unpacked, out of which the cast is never taken. -/
theorem removeCasts_diverges_of_selfCast :
    Sample.selfCast.unpack Sample.method true [] = .ok Sample.selfCastBody ∧
      Sample.enums.removeCasts Sample.selfCastBody = .error .diverges ∧ ∀ w, ¬ Sample.enums.Enters Sample.selfCastBody 0 w := by
  have hcast : Sample.enums.CastOf Sample.selfCastBody 0 0 :=
    ⟨_, List.mem_cons_of_mem _ (List.mem_singleton_self _), _, List.mem_singleton_self _, Sample.enum, rfl, rfl, by decide +kernel⟩
  exact ⟨by decide +kernel, by decide +kernel, fun w h => h.not_transGen (rightUnique_castOf (by decide)) (.single hcast)⟩

end UnboxedEnums

end DexShrinker
