/-
  DexShrinker/Proofs/Outcome.lean
  ===============================
  **Operations that end well.**

  A sequence of steps ends with an answer exactly when every step does, and a walk over
  a list whose every step answers is the walk over the answers.
-/
import DexShrinker.Fault
import Mathlib.Data.List.Forall2

namespace DexShrinker

section

variable {ε δ α β : Type}

theorem ok_bind (a : α) (f : α → Except ε β) : (Except.ok a >>= f) = f a := rfl

theorem bind_eq_ok {x : Except ε α} {f : α → Except ε β} {b : β} :
    (x >>= f) = .ok b ↔ ∃ a, x = .ok a ∧ f a = .ok b := by
  cases x <;> simp [bind, Except.bind]

/-- A check before the rest. -/
theorem check_bind_eq_ok {x : Except ε Unit} {f : Unit → Except ε β} {b : β} :
    (x >>= f) = .ok b ↔ x = .ok () ∧ f () = .ok b := by
  cases x <;> simp [bind, Except.bind]

theorem map_eq_ok {x : Except ε α} {f : α → β} {b : β} : f <$> x = .ok b ↔ ∃ a, x = .ok a ∧ f a = b := by
  cases x <;> simp [Functor.map, Except.map]

@[simp] theorem pure_eq_ok {a b : α} : (pure a : Except ε α) = .ok b ↔ a = b := by
  simp [pure, Except.pure]

theorem toOption_eq_some {x : Except ε α} {a : α} : x.toOption = some a ↔ x = .ok a := by
  cases x <;> simp [Except.toOption]

@[simp] theorem Outcome.ofExcept_eq_ok {x : Except ε α} {f : ε → δ} {a : α} : Outcome.ofExcept f x = .ok a ↔ x = .ok a := by
  cases x <;> simp [Outcome.ofExcept, Outcome.raise]

@[simp] theorem Outcome.lift_eq_ok {x : Guarded α} {a : α} : (Outcome.lift x : Outcome ε α) = .ok a ↔ x = .ok a := by
  cases x <;> simp [Outcome.lift, Outcome.stop]

@[simp] theorem Outcome.mapError_eq_ok {x : Outcome ε α} {f : ε → δ} {a : α} :
    Outcome.mapError f x = .ok a ↔ x = .ok a := by
  rcases x with (e | e) | b <;> simp [Outcome.mapError, Outcome.raise, Outcome.stop]

theorem entryOr_eq_ok {xs : List α} {i : Nat} {f : Fault} {a : α} : entryOr xs i f = .ok a ↔ xs[i]? = some a := by
  unfold entryOr
  split <;> simp_all

theorem mapM_eq_ok {f : α → Except ε β} {g : α → β} (xs : List α) (h : ∀ x ∈ xs, f x = .ok (g x)) :
    xs.mapM f = .ok (xs.map g) := by
  induction xs with
  | nil => rfl
  | cons x xs ih =>
    rw [List.mapM_cons, h x (by simp), ih fun y hy => h y (by simp [hy])]
    rfl

theorem mapM_eq_ok_iff {f : α → Except ε β} {xs : List α} {ys : List β} :
    xs.mapM f = .ok ys ↔ List.Forall₂ (fun x y => f x = .ok y) xs ys := by
  induction xs generalizing ys with
  | nil => simp [pure, Except.pure, eq_comm]
  | cons x xs ih =>
    rw [List.mapM_cons, bind_eq_ok]
    constructor
    · rintro ⟨y, hy, hrest⟩
      obtain ⟨zs, hzs, heq⟩ := bind_eq_ok.1 hrest
      cases heq
      exact .cons hy (ih.1 hzs)
    · intro h
      cases h with
      | cons hy hrest => exact ⟨_, hy, bind_eq_ok.2 ⟨_, ih.2 hrest, rfl⟩⟩

theorem exists_mapM_eq_ok {f : α → Except ε β} {P : α → β → Prop} {xs : List α} (h : ∀ x ∈ xs, ∃ y, f x = .ok y ∧ P x y) :
    ∃ ys, xs.mapM f = .ok ys ∧ List.Forall₂ P xs ys := by
  induction xs with
  | nil => exact ⟨[], rfl, .nil⟩
  | cons x xs ih =>
    obtain ⟨⟨y, hy, hp⟩, hrest⟩ := List.forall_mem_cons.1 h
    obtain ⟨ys, hys, hps⟩ := ih hrest
    refine ⟨y :: ys, ?_, .cons hp hps⟩
    rw [List.mapM_cons, hy, hys]
    rfl

theorem mem_of_filterMapM {f : α → Except ε (Option β)} {xs : List α} {ys : List β} (h : xs.filterMapM f = .ok ys) :
    ∀ y ∈ ys, ∃ x ∈ xs, f x = .ok (some y) := by
  induction xs generalizing ys with
  | nil =>
    cases h
    simp
  | cons x xs ih =>
    rw [List.filterMapM_cons] at h
    obtain ⟨r, hr, h⟩ := bind_eq_ok.1 h
    have hrest {zs : List β} (hzs : xs.filterMapM f = .ok zs) : ∀ y ∈ zs, ∃ x' ∈ x :: xs, f x' = .ok (some y) := by
      intro y hy
      obtain ⟨x', hx', hf⟩ := ih hzs y hy
      exact ⟨x', List.mem_cons_of_mem x hx', hf⟩
    cases r with
    | none => exact hrest h
    | some z =>
      obtain ⟨zs, hzs, h⟩ := bind_eq_ok.1 h
      cases h
      exact List.forall_mem_cons.2 ⟨⟨x, List.mem_cons_self, hr⟩, hrest hzs⟩

/-- A walk that leaves nothing out. -/
theorem exists_filterMapM_eq_ok {f : α → Except ε (Option β)} {P : α → β → Prop} {xs : List α}
    (h : ∀ x ∈ xs, ∃ y, f x = .ok (some y) ∧ P x y) : ∃ ys, xs.filterMapM f = .ok ys ∧ List.Forall₂ P xs ys := by
  induction xs with
  | nil => exact ⟨[], rfl, .nil⟩
  | cons x xs ih =>
    obtain ⟨⟨y, hy, hp⟩, hrest⟩ := List.forall_mem_cons.1 h
    obtain ⟨ys, hys, hps⟩ := ih hrest
    refine ⟨y :: ys, ?_, .cons hp hps⟩
    rw [List.filterMapM_cons, hy, ok_bind]
    dsimp only
    rw [hys]
    rfl

theorem exists_of_getElem?_left {R : α → β → Prop} {xs : List α} {ys : List β} (h : List.Forall₂ R xs ys) {i : Nat} {x : α}
    (hx : xs[i]? = some x) : ∃ y, ys[i]? = some y ∧ R x y := by
  obtain ⟨hi, rfl⟩ := List.getElem?_eq_some_iff.1 hx
  have hi' : i < ys.length := h.length_eq ▸ hi
  exact ⟨ys[i], List.getElem?_eq_getElem hi', h.get hi hi'⟩

theorem exists_of_getElem?_right {R : α → β → Prop} {xs : List α} {ys : List β} (h : List.Forall₂ R xs ys) {i : Nat} {y : β}
    (hy : ys[i]? = some y) : ∃ x, xs[i]? = some x ∧ R x y :=
  exists_of_getElem?_left h.flip hy

theorem getElem?_of_mapM {f : α → Except ε β} {xs : List α} {ys : List β} (h : xs.mapM f = .ok ys) {i : Nat} {x : α}
    (hx : xs[i]? = some x) : ∃ y, ys[i]? = some y ∧ f x = .ok y :=
  exists_of_getElem?_left (mapM_eq_ok_iff.1 h) hx

theorem exists_of_mem_left {R : α → β → Prop} {xs : List α} {ys : List β} (h : List.Forall₂ R xs ys) {x : α}
    (hx : x ∈ xs) : ∃ y ∈ ys, R x y := by
  induction h with
  | nil => cases hx
  | cons hr _ ih =>
    rcases List.mem_cons.1 hx with rfl | hx
    · exact ⟨_, List.mem_cons_self, hr⟩
    · obtain ⟨y, hy, hr⟩ := ih hx
      exact ⟨y, List.mem_cons_of_mem _ hy, hr⟩

/-- Two walks, the second of which answers wherever the first one does. -/
theorem mapM_follows {γ ζ : Type} {f : α → Except ε β} {f' : γ → Except ε ζ} {P : β → ζ → Prop} {xs : List α} {zs : List γ}
    (h : List.Forall₂ (fun x z => ∀ y, f x = .ok y → ∃ w, f' z = .ok w ∧ P y w) xs zs) {ys : List β}
    (hys : xs.mapM f = .ok ys) : ∃ ws, zs.mapM f' = .ok ws ∧ List.Forall₂ P ys ws := by
  rw [mapM_eq_ok_iff] at hys
  induction h generalizing ys with
  | nil =>
    cases hys
    exact ⟨[], rfl, .nil⟩
  | cons hx _ ih =>
    cases hys with
    | cons hy hrest =>
      obtain ⟨w, hw, hp⟩ := hx _ hy
      obtain ⟨ws, hws, hps⟩ := ih hrest
      exact ⟨w :: ws, by rw [List.mapM_cons, hw, hws]; rfl, .cons hp hps⟩

/-- What is done with renamed elements is done with the elements, with renamed results. -/
theorem mapM_map_eq {γ ζ : Type} {f : α → Except ε β} {f' : γ → Except ε ζ} {φ : α → γ} {ψ : β → ζ} {xs : List α}
    (h : ∀ x ∈ xs, f' (φ x) = ψ <$> f x) : (xs.map φ).mapM f' = List.map ψ <$> xs.mapM f := by
  induction xs with
  | nil => rfl
  | cons x xs ih =>
    obtain ⟨hx, hxs⟩ := List.forall_mem_cons.1 h
    rw [List.map_cons, List.mapM_cons, List.mapM_cons, hx, ih hxs]
    cases f x with
    | error e => rfl
    | ok y =>
      cases xs.mapM f with
      | error e => rfl
      | ok ys => rfl

theorem foldlM_eq_ok {f : β → α → Except ε β} {g : β → α → β} (xs : List α) (h : ∀ x ∈ xs, ∀ b, f b x = .ok (g b x))
    (b : β) : xs.foldlM f b = .ok (xs.foldl g b) := by
  induction xs generalizing b with
  | nil => rfl
  | cons x xs ih =>
    rw [List.foldlM_cons, h x (by simp), List.foldl_cons]
    exact ih (fun y hy => h y (by simp [hy])) (g b x)

/-- What every step of a walk preserves holds at its end. -/
theorem foldlM_preserves {f : β → α → Except ε β} {P : β → Prop} {xs : List α}
    (hstep : ∀ b, ∀ x ∈ xs, ∀ b', P b → f b x = .ok b' → P b') {b b' : β} (hb : P b) (h : xs.foldlM f b = .ok b') : P b' := by
  induction xs generalizing b with
  | nil =>
    cases h
    exact hb
  | cons x xs ih =>
    rw [List.foldlM_cons] at h
    obtain ⟨b₁, hx, h⟩ := bind_eq_ok.1 h
    exact ih (fun b y hy => hstep b y (List.mem_cons_of_mem x hy)) (hstep b x List.mem_cons_self b₁ hb hx) h

/-- What one step of a walk brings about and every step preserves holds at its end. -/
theorem foldlM_establishes {f : β → α → Except ε β} {P : β → Prop} {xs : List α} {x : α} (hx : x ∈ xs)
    (hthere : ∀ b b', f b x = .ok b' → P b') (hstep : ∀ b, ∀ y ∈ xs, ∀ b', P b → f b y = .ok b' → P b') {b b' : β}
    (h : xs.foldlM f b = .ok b') : P b' := by
  obtain ⟨before, after, rfl⟩ := List.append_of_mem hx
  rw [List.foldlM_append] at h
  obtain ⟨b₁, -, h⟩ := bind_eq_ok.1 h
  rw [List.foldlM_cons] at h
  obtain ⟨b₂, hb₂, h⟩ := bind_eq_ok.1 h
  exact foldlM_preserves (fun b y hy => hstep b y (by simp [hy])) (hthere b₁ b₂ hb₂) h

/-- A walk fails where a step fails. -/
theorem exists_of_foldlM_eq_error {f : β → α → Except ε β} {xs : List α} {b : β} {e : ε} (h : xs.foldlM f b = .error e) :
    ∃ x ∈ xs, ∃ b, f b x = .error e := by
  induction xs generalizing b with
  | nil => cases h
  | cons x xs ih =>
    rw [List.foldlM_cons] at h
    cases hx : f b x with
    | error e' =>
      rw [hx] at h
      cases h
      exact ⟨x, List.mem_cons_self, b, hx⟩
    | ok b' =>
      rw [hx, ok_bind] at h
      obtain ⟨y, hy, hstep⟩ := ih h
      exact ⟨y, List.mem_cons_of_mem x hy, hstep⟩

theorem forM_eq_ok_iff {f : α → Except ε Unit} {xs : List α} : xs.forM f = .ok () ↔ ∀ x ∈ xs, f x = .ok () := by
  induction xs with
  | nil => simp [List.forM]
  | cons x xs ih =>
    change (f x >>= fun _ => xs.forM f) = .ok () ↔ _
    rw [bind_eq_ok, List.forall_mem_cons, ← ih]
    constructor
    · rintro ⟨_, hx, hxs⟩
      exact ⟨hx, hxs⟩
    · rintro ⟨hx, hxs⟩
      exact ⟨_, hx, hxs⟩

end

end DexShrinker
