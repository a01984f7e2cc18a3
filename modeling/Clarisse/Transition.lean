import Mathlib.Data.List.Induction

/-!
# Runs of a partial step function

A system is a partial step function on states, labelled by the actions it
takes; `none` means that the action is not enabled. A run is the list of its
actions, so every order of steps is one list.
-/

namespace Transition

section
variable {S A : Type} (step : S → A → Option S)

def exec : S → List A → Option S
  | s, [] => some s
  | s, a :: as => (step s a).bind fun s' => exec s' as

/-- Every step of the run `as` from `s` meets `C`. -/
def Along (C : S → A → Prop) : S → List A → Prop
  | _, [] => True
  | s, a :: as => C s a ∧ ∀ s', step s a = some s' → Along C s' as

instance instDecidableAlong {C : S → A → Prop} [∀ s a, Decidable (C s a)] :
    ∀ (s : S) (as : List A), Decidable (Along step C s as)
  | _, [] => isTrue trivial
  | s, a :: as =>
    have : Decidable (∀ s', step s a = some s' → Along step C s' as) :=
      match step s a with
      | none => isTrue nofun
      | some s' =>
        @decidable_of_iff _ (Along step C s' as)
          ⟨fun h _ he => Option.some.inj he ▸ h, fun h => h s' rfl⟩
        (instDecidableAlong s' as)
    inferInstanceAs (Decidable (_ ∧ _))

@[simp] theorem exec_nil (s : S) : exec step s [] = some s := rfl

theorem exec_cons (s : S) (a : A) (as : List A) :
    exec step s (a :: as) = (step s a).bind fun s' => exec step s' as := rfl

theorem exec_append (s : S) (as bs : List A) :
    exec step s (as ++ bs) = (exec step s as).bind fun s' => exec step s' bs := by
  induction as generalizing s with
  | nil => rfl
  | cons a as ih =>
    rw [List.cons_append, exec_cons, exec_cons]
    cases step s a with
    | none => rfl
    | some s' => exact ih s'

theorem exec_snoc {s t : S} {as : List A} {a : A} (h : exec step s (as ++ [a]) = some t) :
    ∃ m, exec step s as = some m ∧ step m a = some t := by
  rw [exec_append, Option.bind_eq_some_iff] at h
  obtain ⟨m, hm, ha⟩ := h
  refine ⟨m, hm, ?_⟩
  rw [exec_cons, Option.bind_eq_some_iff] at ha
  obtain ⟨t', ht, he⟩ := ha
  rw [ht]; exact he

theorem along_cons {C : S → A → Prop} {s s' : S} {a : A} {as : List A} (hc : C s a) (ha : step s a = some s')
    (h : Along step C s' as) : Along step C s (a :: as) := by
  refine ⟨hc, fun t ht => ?_⟩
  rw [ha] at ht
  cases ht
  exact h

/-- What holds at first and is kept by one step holds after every run. -/
theorem exec_invariant {I : S → Prop} (hs : ∀ s a s', I s → step s a = some s' → I s') :
    ∀ {as : List A} {s t : S}, I s → exec step s as = some t → I t := by
  intro as
  induction as with
  | nil => intro s t hi h; cases h; exact hi
  | cons a as ih =>
    intro s t hi h
    rw [exec_cons, Option.bind_eq_some_iff] at h
    obtain ⟨s', ha, h⟩ := h
    exact ih (hs s a s' hi ha) h

theorem along_invariant {C : S → A → Prop} {I : S → Prop}
    (hs : ∀ s a s', I s → C s a → step s a = some s' → I s') :
    ∀ {as : List A} {s t : S}, I s → Along step C s as → exec step s as = some t → I t := by
  intro as
  induction as with
  | nil => intro s t hi _ h; cases h; exact hi
  | cons a as ih =>
    intro s t hi hc h
    rw [exec_cons, Option.bind_eq_some_iff] at h
    obtain ⟨s', ha, h⟩ := h
    exact ih (hs s a s' hi hc.1 ha) (hc.2 s' ha) h

/-- A run meets `C` all along iff each of its steps does, in the state it is taken in. -/
theorem along_iff_forall {C : S → A → Prop} {s : S} {as : List A} :
    Along step C s as ↔ ∀ bs a, bs ++ [a] <+: as → ∀ t, exec step s bs = some t → C t a := by
  induction as generalizing s with
  | nil =>
    refine iff_of_true trivial fun bs a hb => ?_
    exact absurd (List.prefix_nil.mp hb) (by simp)
  | cons b as ih =>
    refine ⟨?_, ?_⟩
    · rintro ⟨hc, h⟩ bs a hb t ht
      cases bs with
      | nil =>
        cases ht
        obtain ⟨rfl, -⟩ := List.cons_prefix_cons.mp hb
        exact hc
      | cons c bs =>
        obtain ⟨rfl, htail⟩ := List.cons_prefix_cons.mp hb
        rw [exec_cons, Option.bind_eq_some_iff] at ht
        obtain ⟨s', hs, ht⟩ := ht
        exact ih.mp (h s' hs) bs a htail t ht
    · intro h
      refine ⟨h [] b (by simp) s rfl, fun s' hs => ih.mpr fun bs a hb t ht => ?_⟩
      refine h (b :: bs) a (List.cons_prefix_cons.mpr ⟨rfl, hb⟩) t ?_
      rw [exec_cons, hs]
      exact ht

/-- Where `C`, of the actions so far and the state before a step, decides `P` after it,
every step of a run meets `C` iff `P` holds in every state that it reaches. -/
theorem before_iff {C : List A → S → A → Prop} {I : List A → S → Prop} {P : S → Prop} {s : S} (hi : I [] s)
    (hp : P s) (hI : ∀ as t a t', I as t → step t a = some t' → I (as ++ [a]) t')
    (hP : ∀ as t a t', I as t → P t → step t a = some t' → (C as t a ↔ P t')) {as : List A} {t : S}
    (hs : exec step s as = some t) :
    (∀ bs a, bs ++ [a] <+: as → ∀ u, exec step s bs = some u → C bs u a) ↔
      ∀ bs, bs <+: as → ∀ u, exec step s bs = some u → P u := by
  have hrun : ∀ {as : List A} {t : S}, exec step s as = some t → I as t := by
    intro as
    induction as using List.reverseRecOn with
    | nil => intro t ht; cases ht; exact hi
    | append_singleton as a ih =>
      intro t ht
      obtain ⟨m, hm, ha⟩ := exec_snoc step ht
      exact hI as m a t (ih hm) ha
  induction as using List.reverseRecOn generalizing t with
  | nil =>
    refine iff_of_true (fun bs a hb => absurd (List.prefix_nil.mp hb) (by simp)) fun bs hb u hu => ?_
    rw [List.prefix_nil.mp hb] at hu
    cases hu
    exact hp
  | append_singleton as a ih =>
    obtain ⟨m, hm, ha⟩ := exec_snoc step hs
    refine ⟨?_, ?_⟩
    · intro h bs hb u hu
      have hbefore := (ih hm).mp fun bs b hb => h bs b (hb.trans (List.prefix_append _ _))
      rcases List.prefix_concat_iff.mp hb with rfl | hb
      · rw [hs] at hu
        cases hu
        have hPm := hbefore as (List.prefix_refl _) m hm
        exact (hP as m a t (hrun hm) hPm ha).mp (h as a (List.prefix_refl _) m hm)
      · exact hbefore bs hb u hu
    · intro h bs b hb u hu
      have hbefore : ∀ bs, bs <+: as → ∀ u, exec step s bs = some u → P u :=
        fun bs hb => h bs (hb.trans (List.prefix_append _ _))
      rcases List.prefix_concat_iff.mp hb with heq | hb
      · obtain ⟨rfl, hab⟩ := List.append_inj' heq rfl
        cases hab
        rw [hm] at hu
        cases hu
        have hPm := hbefore bs (List.prefix_refl _) m hm
        exact (hP _ m _ t (hrun hm) hPm ha).mpr (h _ (List.prefix_refl _) t hs)
      · exact (ih hm).mpr hbefore bs b hb u hu

theorem along_iff {C : S → A → Prop} {I P : S → Prop} {s : S} (hi : I s) (hp : P s)
    (hI : ∀ s a s', I s → step s a = some s' → I s')
    (hP : ∀ s a s', I s → P s → step s a = some s' → (C s a ↔ P s')) {as : List A} {t : S}
    (hs : exec step s as = some t) :
    Along step C s as ↔ ∀ bs, bs <+: as → ∀ u, exec step s bs = some u → P u := by
  rw [along_iff_forall]
  exact before_iff step (C := fun _ => C) (I := fun _ => I) hi hp (fun _ => hI) (fun _ => hP) hs

/-- Where every step raises a potential, the potential bounds the length of a run. -/
theorem exec_length_le {I : S → Prop} {potential : S → Nat} (hI : ∀ s a s', I s → step s a = some s' → I s')
    (hp : ∀ s a s', I s → step s a = some s' → potential s < potential s') :
    ∀ {as : List A} {s t : S}, I s → exec step s as = some t → as.length + potential s ≤ potential t := by
  intro as
  induction as with
  | nil =>
    intro s t _ h
    cases h
    simp
  | cons a as ih =>
    intro s t hi h
    rw [exec_cons, Option.bind_eq_some_iff] at h
    obtain ⟨s', ha, h⟩ := h
    have := ih (hI s a s' hi ha) h
    have := hp s a s' hi ha
    rw [List.length_cons]
    omega

theorem exists_exhausted {I : S → Prop} {P : A → Prop} {potential : S → Nat} {B : Nat}
    (hI : ∀ s a s', I s → P a → step s a = some s' → I s')
    (hp : ∀ s a s', I s → P a → step s a = some s' → potential s < potential s')
    (hB : ∀ s, I s → potential s ≤ B) (s : S) (hs : I s) :
    ∃ as t, (∀ a ∈ as, P a) ∧ exec step s as = some t ∧ I t ∧ ∀ a, P a → step t a = none := by
  induction hn : B - potential s using Nat.strongRecOn generalizing s with
  | ind n ih =>
    by_cases hstuck : ∀ a, P a → step s a = none
    · exact ⟨[], s, (fun a h => by cases h), rfl, hs, hstuck⟩
    · simp only [Classical.not_forall] at hstuck
      obtain ⟨a, ha, hne⟩ := hstuck
      obtain ⟨s', hstep⟩ := Option.ne_none_iff_exists'.mp hne
      have hs' := hI s a s' hs ha hstep
      have hlt := hp s a s' hs ha hstep
      have hle := hB s' hs'
      obtain ⟨as, t, has, hexec, ht, hend⟩ := ih (B - potential s') (by omega) s' hs' rfl
      refine ⟨a :: as, t, ?_, ?_, ht, hend⟩
      · intro b hb
        rcases List.mem_cons.mp hb with rfl | hb
        · exact ha
        · exact has b hb
      · rw [exec_cons, hstep]
        exact hexec

/-- When each step of one system is matched by a step of another, so is each run. -/
theorem exec_simulates {S' A' : Type} {step' : S' → A' → Option S'} {R : S → S' → Prop}
    (h : ∀ s t a s', R s t → step s a = some s' → ∃ b t', step' t b = some t' ∧ R s' t') :
    ∀ {as : List A} {s s' : S} {t : S'}, R s t → exec step s as = some s' →
      ∃ bs t', exec step' t bs = some t' ∧ R s' t' := by
  intro as
  induction as with
  | nil =>
    intro s s' t hr hs
    cases hs
    exact ⟨[], t, rfl, hr⟩
  | cons a as ih =>
    intro s s' t hr hs
    rw [exec_cons, Option.bind_eq_some_iff] at hs
    obtain ⟨m, hm, hs⟩ := hs
    obtain ⟨b, n, hb, hn⟩ := h s t a m hr hm
    obtain ⟨bs, t', hbs, ht⟩ := ih hn hs
    refine ⟨b :: bs, t', ?_, ht⟩
    rw [exec_cons, hb]
    exact hbs

/-- Where two systems are in step on matching actions, so are their runs of matching
actions, whether these go through or not. -/
theorem exec_lockstep {S' A' : Type} {step' : S' → A' → Option S'} {R : S → S' → Prop} {M : A → A' → Prop}
    {C : S' → A' → Prop} (h : ∀ s t a b, R s t → M a b → C t b → Option.Rel R (step s a) (step' t b)) {as : List A}
    {bs : List A'} (hm : List.Forall₂ M as bs) :
    ∀ {s t}, R s t → Along step' C t bs → Option.Rel R (exec step s as) (exec step' t bs) := by
  induction hm with
  | nil => exact fun hr _ => Option.Rel.some hr
  | @cons a b as bs hab _ ih =>
    intro s t hr hc
    rw [exec_cons, exec_cons]
    have hstep := h s t a b hr hab hc.1
    cases hs : step s a with
    | none =>
      rw [hs] at hstep
      cases hstep' : step' t b with
      | none => exact Option.Rel.none
      | some t' =>
        rw [hstep'] at hstep
        cases hstep
    | some s' =>
      rw [hs] at hstep
      cases hstep' : step' t b with
      | none =>
        rw [hstep'] at hstep
        cases hstep
      | some t' =>
        rw [hstep'] at hstep
        cases hstep with
        | some hr' => exact ih hr' (hc.2 t' hstep')

theorem exists_matching {A' : Type} {M : A' → A → Prop} {C : S → A → Prop} (h : ∀ s a, ∃ b, M a b ∧ C s b) :
    ∀ (as : List A') (s : S), ∃ bs, List.Forall₂ M as bs ∧ Along step C s bs := by
  intro as
  induction as with
  | nil => exact fun s => ⟨[], List.Forall₂.nil, trivial⟩
  | cons a as ih =>
    intro s
    obtain ⟨b, hm, hc⟩ := h s a
    cases hs : step s b with
    | none =>
      obtain ⟨bs, hbs, -⟩ := ih s
      refine ⟨b :: bs, List.Forall₂.cons hm hbs, hc, fun s' hs' => ?_⟩
      rw [hs] at hs'
      cases hs'
    | some s' =>
      obtain ⟨bs, hbs, hlong⟩ := ih s'
      exact ⟨b :: bs, List.Forall₂.cons hm hbs, along_cons step hc hs hlong⟩

end

/-! ## Steps that fail with an error -/

theorem foldlM_snoc {ε S A : Type} (f : S → A → Except ε S) (s : S) (as : List A) (a : A) :
    (as ++ [a]).foldlM f s = (as.foldlM f s).bind fun t => f t a := by
  have h : ∀ t, [a].foldlM f t = f t a := by
    intro t
    rw [List.foldlM_cons]
    cases f t a <;> rfl
  rw [List.foldlM_append]
  cases as.foldlM f s with
  | error _ => rfl
  | ok t => exact h t

/-- Two computations fail together or end in related states. -/
def Agrees {ε δ S S' : Type} (Q : ε → δ → Prop) (R : S → S' → Prop) : Except ε S → Except δ S' → Prop
  | .ok s, .ok t => R s t
  | .error e, .error d => Q e d
  | .ok _, .error _ => False
  | .error _, .ok _ => False

section
variable {ε δ S S' A : Type} {Q : ε → δ → Prop} {R : S → S' → Prop}

theorem Agrees.cases {x : Except ε S} {y : Except δ S'} (h : Agrees Q R x y) :
    (∃ e d, x = .error e ∧ y = .error d ∧ Q e d) ∨ ∃ s t, x = .ok s ∧ y = .ok t ∧ R s t := by
  cases x with
  | error e =>
    cases y with
    | error d => exact Or.inl ⟨e, d, rfl, rfl, h⟩
    | ok t => exact h.elim
  | ok s =>
    cases y with
    | error d => exact h.elim
    | ok t => exact Or.inr ⟨s, t, rfl, rfl, h⟩

theorem Agrees.foldlM {f : S → A → Except ε S} {g : S' → A → Except δ S'}
    (hstep : ∀ s t a, R s t → Agrees Q R (f s a) (g t a)) :
    ∀ (as : List A) {s : S} {t : S'}, R s t → Agrees Q R (as.foldlM f s) (as.foldlM g t)
  | [], _, _, h => h
  | a :: as, s, t, h => by
    rw [List.foldlM_cons, List.foldlM_cons]
    rcases (hstep s t a h).cases with ⟨e, d, hf, hg, hq⟩ | ⟨s', t', hf, hg, hr⟩
    · rw [hf, hg]
      exact hq
    · rw [hf, hg]
      exact Agrees.foldlM hstep as hr

end

end Transition
