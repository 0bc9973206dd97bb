import Mathlib.Data.List.Shortlex

/-!
# Three-way comparisons

The sign of a comparison says how two values lie in a strict order (`Sign`). Signs of parts give
the sign of lists, shorter lists first. A comparison that always returns such a sign is a
strict total order (`TotalOrder.of_sign`), and `Coherent` is what a table with buckets needs of the
comparison and the hash of its keys.
-/
namespace ThreeWay
universe u v w
variable {α : Type u} {E : Type v} {K : Type w}

structure Sign (lt : α → α → Prop) (a b : α) (c : Int) : Prop where
  neg : c < 0 ↔ lt a b
  zero : c = 0 ↔ a = b
  pos : 0 < c ↔ lt b a

section
variable {lt : α → α → Prop} [Std.Asymm lt] {a b : α}

theorem Sign.of_lt (less : lt a b) : Sign lt a b (-1) where
  neg := iff_of_true (by omega) less
  zero := iff_of_false (by omega) (fun same => Std.Asymm.asymm a b less (same ▸ same ▸ less))
  pos := iff_of_false (by omega) (fun more => Std.Asymm.asymm a b less more)

theorem Sign.of_gt (more : lt b a) : Sign lt a b 1 where
  neg := iff_of_false (by omega) (fun less => Std.Asymm.asymm a b less more)
  zero := iff_of_false (by omega) (fun same => Std.Asymm.asymm b a more (same ▸ same ▸ more))
  pos := iff_of_true (by omega) more

theorem Sign.of_eq (a : α) : Sign lt a a 0 where
  neg := iff_of_false (by omega) (fun less => Std.Asymm.asymm a a less less)
  zero := iff_of_true rfl rfl
  pos := iff_of_false (by omega) (fun less => Std.Asymm.asymm a a less less)

/-! ### Lists -/

theorem Sign.cons {s t : List α} {c : Int} (sign : Sign (List.Lex lt) s t c) (a : α) :
    Sign (List.Lex lt) (a :: s) (a :: t) c where
  neg := sign.neg.trans List.lex_cons_iff.symm
  zero := sign.zero.trans (by rw [List.cons.injEq,eq_self,true_and])
  pos := sign.pos.trans List.lex_cons_iff.symm

end

theorem Sign.shortlex {lt : α → α → Prop} {s t : List α} {c : Int} (sign : Sign (List.Lex lt) s t c)
    (same : s.length = t.length) : Sign (List.Shortlex lt) s t c where
  neg := sign.neg.trans (List.shortlex_iff_lex same).symm
  zero := sign.zero
  pos := sign.pos.trans (List.shortlex_iff_lex same.symm).symm

theorem shortlex_trans {lt : α → α → Prop} (trans : ∀ {a b c}, lt a b → lt b c → lt a c) {s t u : List α}
    (first : List.Shortlex lt s t) (second : List.Shortlex lt t u) : List.Shortlex lt s u := by
  rw [List.shortlex_def] at first second ⊢
  rcases first with shorter | ⟨same,lex⟩
  · left
    omega
  · rcases second with shorter | ⟨same',lex'⟩
    · left
      omega
    · right
      exact ⟨same.trans same',List.lex_trans trans lex lex'⟩

/-! ### Comparisons that may fail -/

/-- A comparison that returns, and whose sign is a strict total order up to an equivalence. -/
structure TotalOrder (cmp : K → K → Except E Int) (same : K → K → Prop) : Prop where
  returns : ∀ a b, ∃ c, cmp a b = .ok c
  equal : ∀ {a b c}, cmp a b = .ok c → (c = 0 ↔ same a b)
  refl : ∀ a, same a a
  antisymm : ∀ {a b c d}, cmp a b = .ok c → cmp b a = .ok d → (c < 0 ↔ 0 < d)
  trans : ∀ {a b c x y z}, cmp a b = .ok x → cmp b c = .ok y → cmp a c = .ok z → x < 0 → y < 0 → z < 0

/-- The comparison and the hash of keys that a table with buckets can be used with. -/
structure Coherent {H : Type u} (eqv : K → K → Except E Bool) (hash : K → Except E H) : Prop where
  refl : ∀ a, eqv a a = .ok true
  symm : ∀ {a b}, eqv a b = .ok true → eqv b a = .ok true
  trans : ∀ {a b c}, eqv a b = .ok true → eqv b c = .ok true → eqv a c = .ok true
  hash_eq : ∀ {a b}, eqv a b = .ok true → ∃ h, hash a = .ok h ∧ hash b = .ok h

theorem TotalOrder.of_sign {lt : α → α → Prop} (trans : ∀ {a b c}, lt a b → lt b c → lt a c) (f : K → α)
    {cmp : K → K → Except E Int} (sign : ∀ a b, ∃ c, cmp a b = .ok c ∧ Sign lt (f a) (f b) c) :
    TotalOrder cmp (fun a b => f a = f b) := by
  have known : ∀ {a b c}, cmp a b = .ok c → Sign lt (f a) (f b) c := by
    intro a b c returned
    obtain ⟨d,returned',signed⟩ := sign a b
    cases returned.symm.trans returned'
    exact signed
  constructor
  · intro a b
    obtain ⟨c,returned,_⟩ := sign a b
    exact ⟨c,returned⟩
  · intro a b c returned
    exact (known returned).zero
  · intro a
    rfl
  · intro a b c d returned back
    exact (known returned).neg.trans (known back).pos.symm
  · intro a b c x y z first second both less less'
    exact (known both).neg.mpr (trans ((known first).neg.mp less) ((known second).neg.mp less'))

end ThreeWay
