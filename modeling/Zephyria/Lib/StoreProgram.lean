import Mathlib

namespace Zephyria

/-- A deterministic computation that reaches its store only through `get` and `set`. -/
inductive Prog (κ ν : Type) (α : Type) where
  | ret (a : α)
  | get (k : κ) (next : ν → Prog κ ν α)
  | set (k : κ) (v : ν) (next : Prog κ ν α)

namespace Prog

variable {κ ν α γ : Type}

def bind : Prog κ ν α → (α → Prog κ ν γ) → Prog κ ν γ
  | .ret a, f => f a
  | .get k next, f => .get k (fun v => bind (next v) f)
  | .set k v next, f => .set k v (bind next f)

instance : Monad (Prog κ ν) where
  pure := .ret
  bind := bind

def read (k : κ) : Prog κ ν ν := .get k .ret

def write (k : κ) (v : ν) : Prog κ ν Unit := .set k v (.ret ())

theorem bind_eq (p : Prog κ ν α) (f : α → Prog κ ν γ) : p >>= f = p.bind f := rfl

def denote : Prog κ ν α → [DecidableEq κ] → (κ → ν) → α × (κ → ν)
  | .ret a, _, m => (a, m)
  | .get k next, _, m => denote (next (m k)) m
  | .set k v next, _, m => denote next (Function.update m k v)

section Denote

variable [DecidableEq κ] (m : κ → ν)

@[simp]
theorem denote_pure (a : α) : (pure a : Prog κ ν α).denote m = (a, m) := rfl

@[simp]
theorem denote_read (k : κ) : (read k : Prog κ ν ν).denote m = (m k, m) := rfl

@[simp]
theorem denote_write (k : κ) (v : ν) : (write k v).denote m = ((), Function.update m k v) := rfl

@[simp]
theorem denote_bind (p : Prog κ ν α) (f : α → Prog κ ν γ) :
    (p >>= f).denote m = (f (p.denote m).1).denote (p.denote m).2 := by
  rw [bind_eq]
  induction p generalizing m with
  | ret a => rfl
  | get k next ih => exact ih _ m
  | set k v next ih => exact ih _

@[simp]
theorem denote_ite {c : Prop} [Decidable c] (p q : Prog κ ν α) :
    (if c then p else q).denote m = if c then p.denote m else q.denote m := by
  split <;> rfl

end Denote

def Writes (F : Set κ) : Prog κ ν α → Prop
  | .ret _ => True
  | .get _ next => ∀ v, Writes F (next v)
  | .set k _ next => k ∈ F ∧ Writes F next

section Writes

variable {F : Set κ}

theorem writes_pure (a : α) : (pure a : Prog κ ν α).Writes F := trivial

theorem Writes.bind {p : Prog κ ν α} {f : α → Prog κ ν γ} (hp : p.Writes F) (hf : ∀ a, (f a).Writes F) :
    (p >>= f).Writes F := by
  rw [bind_eq]
  induction p with
  | ret a => exact hf a
  | get k next ih => exact fun v => ih v (hp v)
  | set k v next ih => exact ⟨hp.1, ih hp.2⟩

theorem Writes.denote [DecidableEq κ] {p : Prog κ ν α} (hp : p.Writes F) (m : κ → ν) {k : κ} (hk : k ∉ F) :
    (p.denote m).2 k = m k := by
  induction p generalizing m with
  | ret a => rfl
  | get j next ih => exact ih _ (hp _) m
  | set j v next ih =>
    have hjk : k ≠ j := by
      rintro rfl
      exact hk hp.1
    exact (ih hp.2 _).trans (Function.update_of_ne hjk v m)

end Writes

end Prog

structure Buffer (ω κ ν : Type) [DecidableEq κ] where
  fresh : ω
  find : ω → κ → Option ν
  write : ω → κ → ν → ω
  find_fresh : ∀ k, find fresh k = none
  find_write : ∀ o k v k', find (write o k v) k' = if k' = k then some v else find o k'

namespace Buffer

variable {ω κ ν α γ : Type} [DecidableEq κ] (B : Buffer ω κ ν)

def view (r : κ → ν) (o : ω) (k : κ) : ν := (B.find o k).getD (r k)

def run (r : κ → ν) : Prog κ ν α → ω → α × ω
  | .ret a, o => (a, o)
  | .get k next, o => run r (next (B.view r o k)) o
  | .set k v next, o => run r next (B.write o k v)

/-- Over a store that answers `r`, the run touches only keys of `F`, and no answer could be replaced
by one that `E` identifies with it and be noticed. -/
def Local (E : κ → ν → ν → Prop) (F : Set κ) (r : κ → ν) : Prog κ ν α → ω → Prop
  | .ret _, _ => True
  | .get k next, o => k ∈ F ∧ (∀ v, E k v (B.view r o k) → next v = next (B.view r o k)) ∧
      Local E F r (next (B.view r o k)) o
  | .set k v next, o => k ∈ F ∧ Local E F r next (B.write o k v)

/-- Every outcome satisfies `Q` when each read that reaches the store below may be answered by
any value `R` allows for its key. -/
def Always (R : κ → ν → Prop) (Q : α → ω → Prop) : Prog κ ν α → ω → Prop
  | .ret a, o => Q a o
  | .get k next, o => ∀ v, (B.find o k = some v ∨ B.find o k = none ∧ R k v) → Always R Q (next v) o
  | .set k v next, o => Always R Q next (B.write o k v)

/-- A read of `k` may return `v`: the buffer holds it, or the store below may answer it. -/
def Answers (R : κ → ν → Prop) (o : ω) (k : κ) (v : ν) : Prop := B.find o k = some v ∨ B.find o k = none ∧ R k v

variable {B} in
theorem Answers.below {R : κ → ν → Prop} {o : ω} {k : κ} {v : ν} (h : B.Answers R o k v) (hk : B.find o k = none) :
    R k v := by
  obtain hown | ⟨-, hbelow⟩ := h
  · rw [hk] at hown
    cases hown
  · exact hbelow

theorem view_write (r : κ → ν) (o : ω) (k : κ) (v : ν) (k' : κ) :
    B.view r (B.write o k v) k' = if k' = k then v else B.view r o k' := by
  unfold view
  rw [B.find_write]
  split_ifs <;> rfl

theorem view_fresh (r : κ → ν) (k : κ) : B.view r B.fresh k = r k := by
  unfold view
  rw [B.find_fresh]
  rfl

@[simp]
theorem run_pure (r : κ → ν) (a : α) (o : ω) : B.run r (pure a : Prog κ ν α) o = (a, o) := rfl

@[simp]
theorem run_read (r : κ → ν) (k : κ) (o : ω) : B.run r (Prog.read k) o = (B.view r o k, o) := rfl

@[simp]
theorem run_write (r : κ → ν) (k : κ) (v : ν) (o : ω) :
    B.run r (Prog.write k v) o = ((), B.write o k v) := rfl

@[simp]
theorem run_bind (r : κ → ν) (p : Prog κ ν α) (f : α → Prog κ ν γ) (o : ω) :
    B.run r (p >>= f) o = B.run r (f (B.run r p o).1) (B.run r p o).2 := by
  rw [Prog.bind_eq]
  induction p generalizing o with
  | ret a => rfl
  | get k next ih => exact ih _ o
  | set k v next ih => exact ih _

theorem run_denote (r : κ → ν) (p : Prog κ ν α) (o : ω) :
    (B.run r p o).1 = (p.denote (B.view r o)).1 ∧
      B.view r (B.run r p o).2 = (p.denote (B.view r o)).2 := by
  induction p generalizing o with
  | ret a => exact ⟨rfl, rfl⟩
  | get k next ih => exact ih _ o
  | set k v next ih =>
    have hw : B.view r (B.write o k v) = Function.update (B.view r o) k v := by
      funext k'
      rw [view_write, Function.update_apply]
    simpa only [run, Prog.denote, hw] using ih (B.write o k v)

theorem run_fresh (r : κ → ν) (p : Prog κ ν α) :
    (B.run r p B.fresh).1 = (p.denote r).1 ∧ B.view r (B.run r p B.fresh).2 = (p.denote r).2 := by
  have hview : B.view r B.fresh = r := funext (B.view_fresh r)
  have hrun := B.run_denote r p B.fresh
  rwa [hview] at hrun

theorem always_bind (R : κ → ν → Prop) (Q : γ → ω → Prop) (p : Prog κ ν α) (f : α → Prog κ ν γ)
    (o : ω) : B.Always R Q (p >>= f) o ↔ B.Always R (fun a o' => B.Always R Q (f a) o') p o := by
  rw [Prog.bind_eq]
  induction p generalizing o with
  | ret a => exact Iff.rfl
  | get k next ih =>
    simp only [Prog.bind, Always]
    exact forall_congr' fun v => imp_congr_right fun _ => ih v o
  | set k v next ih => exact ih _

theorem always_mono {R : κ → ν → Prop} {Q Q' : α → ω → Prop} (hQ : ∀ a o, Q a o → Q' a o)
    {p : Prog κ ν α} {o : ω} (h : B.Always R Q p o) : B.Always R Q' p o := by
  induction p generalizing o with
  | ret a => exact hQ a o h
  | get k next ih => exact fun v hv => ih v (h v hv)
  | set k v next ih => exact ih h

theorem always_weaken {R R' : κ → ν → Prop} (hR : ∀ k v, R' k v → R k v) {Q : α → ω → Prop} {p : Prog κ ν α} {o : ω}
    (h : B.Always R Q p o) : B.Always R' Q p o := by
  induction p generalizing o with
  | ret a => exact h
  | get k next ih => exact fun v hv => ih v (h v (hv.imp_right fun hbelow => ⟨hbelow.1, hR k v hbelow.2⟩))
  | set k v next ih => exact ih h

theorem always_writes {R : κ → ν → Prop} {F : Set κ} {p : Prog κ ν α} (hp : p.Writes F) (o : ω) :
    B.Always R (fun _ o' => ∀ k ∉ F, B.find o' k = B.find o k) p o := by
  induction p generalizing o with
  | ret a => exact fun _ _ => rfl
  | get k next ih => exact fun v _ => ih v (hp v) o
  | set k v next ih =>
    apply B.always_mono _ (ih hp.2 _)
    intro a o' h j hj
    have hjk : j ≠ k := by
      rintro rfl
      exact hj hp.1
    rw [h j hj, B.find_write, if_neg hjk]

theorem always_true (R : κ → ν → Prop) (p : Prog κ ν α) (o : ω) : B.Always R (fun _ _ => True) p o := by
  induction p generalizing o with
  | ret a => trivial
  | get k next ih => exact fun v _ => ih v o
  | set k v next ih => exact ih _

theorem always_bind_of_forall {R : κ → ν → Prop} {Q : γ → ω → Prop} (p : Prog κ ν α)
    {f : α → Prog κ ν γ} {o : ω} (h : ∀ a o', B.Always R Q (f a) o') : B.Always R Q (p >>= f) o :=
  (B.always_bind R Q p f o).mpr (B.always_mono (fun a o' _ => h a o') (B.always_true R p o))

theorem always_find_ne_none {R : κ → ν → Prop} (p : Prog κ ν α) {o : ω} {k : κ} (h : B.find o k ≠ none) :
    B.Always R (fun _ o' => B.find o' k ≠ none) p o := by
  induction p generalizing o with
  | ret a => exact h
  | get j next ih => exact fun v _ => ih v h
  | set j v next ih =>
    apply ih
    rw [B.find_write]
    split
    · simp
    · exact h

theorem always_run {R : κ → ν → Prop} {Q : α → ω → Prop} {p : Prog κ ν α} {o : ω} (r : κ → ν)
    (hr : ∀ k, R k (r k)) (h : B.Always R Q p o) : Q (B.run r p o).1 (B.run r p o).2 := by
  induction p generalizing o with
  | ret a => exact h
  | get k next ih =>
    apply ih
    apply h
    unfold view
    cases hf : B.find o k with
    | some v => exact Or.inl rfl
    | none => exact Or.inr ⟨rfl, hr k⟩
  | set k v next ih => exact ih h

def Confined (F : Set κ) (o : ω) : Prop := ∀ k ∉ F, B.find o k = none

section Confined

variable {B} {F : Set κ} {R : κ → ν → Prop}

theorem confined_fresh : B.Confined F B.fresh := fun k _ => B.find_fresh k

theorem Confined.writes {o : ω} (h : B.Confined F o) {p : Prog κ ν α} (hp : p.Writes F) :
    B.Always R (fun _ o' => B.Confined F o') p o :=
  B.always_mono (fun _ _ hsame k hk => (hsame k hk).trans (h k hk)) (B.always_writes hp o)

theorem Confined.bind {o : ω} (h : B.Confined F o) {p : Prog κ ν α} (hp : p.Writes F) {f : α → Prog κ ν γ}
    {Q : γ → ω → Prop} (hf : ∀ a o', B.Confined F o' → B.Always R Q (f a) o') : B.Always R Q (p >>= f) o :=
  (B.always_bind R Q p f o).mpr (B.always_mono hf (h.writes hp))

end Confined

section Local

variable {E : κ → ν → ν → Prop} {F : Set κ} {r : κ → ν}

theorem local_pure (a : α) (o : ω) : B.Local E F r (pure a : Prog κ ν α) o := trivial

theorem local_write {k : κ} (hk : k ∈ F) (v : ν) (o : ω) : B.Local E F r (Prog.write k v) o :=
  ⟨hk, trivial⟩

theorem local_read_map {k : κ} (hk : k ∈ F) {f : ν → α} (hf : ∀ v w, E k v w → f v = f w) (o : ω) :
    B.Local E F r (Prog.read k >>= fun v => pure (f v)) o :=
  ⟨hk, fun v h => congrArg Prog.ret (hf v _ h), trivial⟩

theorem local_bind {p : Prog κ ν α} {f : α → Prog κ ν γ} {o : ω} (hp : B.Local E F r p o)
    (hf : B.Local E F r (f (B.run r p o).1) (B.run r p o).2) : B.Local E F r (p >>= f) o := by
  rw [Prog.bind_eq]
  induction p generalizing o with
  | ret a => exact hf
  | get k next ih =>
    exact ⟨hp.1, fun v h => congrArg (Prog.bind · f) (hp.2.1 v h), ih _ hp.2.2 hf⟩
  | set k v next ih => exact ⟨hp.1, ih hp.2 hf⟩

theorem find_run_of_local {p : Prog κ ν α} {o : ω} (hp : B.Local E F r p o) {k : κ} (hk : k ∉ F) :
    B.find (B.run r p o).2 k = B.find o k := by
  induction p generalizing o with
  | ret a => rfl
  | get j next ih => exact ih _ hp.2.2
  | set j v next ih =>
    have hjk : k ≠ j := by rintro rfl; exact hk hp.1
    have h := ih hp.2
    rw [B.find_write, if_neg hjk] at h
    exact h

end Local

end Buffer

end Zephyria
