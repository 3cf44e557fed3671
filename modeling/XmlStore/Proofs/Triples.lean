/-!
# What an action does

An action with state and faults, run from one state, satisfies a condition if it succeeds and
another one if it fails.
-/

namespace XmlStore

variable {ε σ α β : Type}

def Triple (action : EStateM ε σ α) (s : σ) (post : α → σ → Prop) (fault : ε → σ → Prop) : Prop :=
  match action s with
  | .ok a s' => post a s'
  | .error e s' => fault e s'

namespace Triple

variable {action : EStateM ε σ α} {s s' : σ} {post post' : α → σ → Prop}
  {fault fault' : ε → σ → Prop}

theorem of_run {a : α} (h : action s = .ok a s') (hp : post a s') : Triple action s post fault := by
  rw [Triple, h]
  exact hp

theorem run_ok {a : α} (h : Triple action s post fault) (hr : action s = .ok a s') :
    post a s' := by
  rw [Triple, hr] at h
  exact h

theorem bind {next : α → EStateM ε σ β} {after : β → σ → Prop}
    (h : Triple action s post fault) (hn : ∀ a s', post a s' → Triple (next a) s' after fault) :
    Triple (action >>= next) s after fault := by
  unfold Triple at h
  change Triple (EStateM.bind action next) s after fault
  unfold Triple EStateM.bind
  split at h
  next a s' hr =>
    rw [hr]
    exact hn a s' h
  next e s' hr =>
    rw [hr]
    exact h

theorem step {a : α} {next : α → EStateM ε σ β} {after : β → σ → Prop}
    (hr : action s = .ok a s') (hn : Triple (next a) s' after fault) :
    Triple (action >>= next) s after fault :=
  have h : Triple action s (fun b t => b = a ∧ t = s') fault := of_run hr ⟨rfl, rfl⟩
  h.bind (by
    rintro _ _ ⟨rfl, rfl⟩
    exact hn)

theorem mono (h : Triple action s post fault) (hp : ∀ a s', post a s' → post' a s')
    (hf : ∀ e s', fault e s' → fault' e s') : Triple action s post' fault' := by
  unfold Triple at h ⊢
  split at h
  · exact hp _ _ h
  · exact hf _ _ h

theorem and (h : Triple action s post fault) (h' : Triple action s post' fault') :
    Triple action s (fun a s' => post a s' ∧ post' a s') fun e s' => fault e s' ∧ fault' e s' := by
  unfold Triple at *
  cases hr : action s with
  | ok a s' => exact ⟨by simpa [hr] using h, by simpa [hr] using h'⟩
  | error e s' => exact ⟨by simpa [hr] using h, by simpa [hr] using h'⟩

/-- A second condition on a run that cannot fail. -/
theorem and_safe (h : Triple action s post fun _ _ => False) (h' : Triple action s post' fault') :
    Triple action s (fun a s' => post a s' ∧ post' a s') fun _ _ => False :=
  (h.and h').mono (fun _ _ hp => hp) fun _ _ hf => hf.1

/-- After an action that cannot fail. -/
theorem bind_safe {next : α → EStateM ε σ β} {after : β → σ → Prop}
    (h : Triple action s post fun _ _ => False)
    (hn : ∀ a s', post a s' → Triple (next a) s' after fault) :
    Triple (action >>= next) s after fault :=
  (h.mono (fun _ _ hp => hp) fun _ _ hf => hf.elim).bind hn

/-- After an action whose faults are among those that may come. -/
theorem bind_mono {next : α → EStateM ε σ β} {after : β → σ → Prop}
    (h : Triple action s post fault) (hf : ∀ e s', fault e s' → fault' e s')
    (hn : ∀ a s', post a s' → Triple (next a) s' after fault') :
    Triple (action >>= next) s after fault' :=
  (h.mono (fun _ _ hp => hp) hf).bind hn

theorem pure {a : α} (h : post a s) : Triple (Pure.pure a) s post fault := of_run rfl h

theorem ofExcept {found : Except ε α} (hp : ∀ a, found = .ok a → post a s)
    (hf : ∀ e, found = .error e → fault e s) :
    Triple (MonadExcept.ofExcept found) s post fault := by
  cases found with
  | ok a => exact of_run rfl (hp a rfl)
  | error e => exact hf e rfl

theorem throw {e : ε} (h : fault e s) : Triple (MonadExcept.throw e) s post fault := h

/-- An action that cannot fail in a way that is excluded succeeds. -/
theorem succeeds (h : Triple action s post fault) (hf : ∀ e s', ¬ fault e s') :
    ∃ a s', action s = .ok a s' ∧ post a s' := by
  unfold Triple at h
  split at h
  next a s' hr => exact ⟨a, s', hr, h⟩
  next e s' _ => exact absurd h (hf e s')

end Triple

theorem exists_of_bind_eq_ok {first : Except ε α} {next : α → Except ε β} {b : β}
    (h : (first >>= next) = .ok b) : ∃ a, first = .ok a ∧ next a = .ok b := by
  cases first with
  | error fault => cases h
  | ok a => exact ⟨a, rfl, h⟩

theorem bind_eq_error_iff {first : Except ε α} {next : α → Except ε β} {e : ε} :
    (first >>= next) = .error e ↔ first = .error e ∨ ∃ a, first = .ok a ∧ next a = .error e := by
  cases first with
  | error fault => simp [bind, Except.bind]
  | ok a => simp [bind, Except.bind]

theorem run_get_bind (next : σ → EStateM ε σ β) (s : σ) :
    (get >>= next : EStateM ε σ β) s = next s s := rfl

section
variable {action : EStateM ε σ α} {next : α → EStateM ε σ β} {s s' : σ}

theorem run_bind {a : α} (h : action s = .ok a s') : (action >>= next) s = next a s' := by
  show EStateM.bind action next s = _
  rw [EStateM.bind, h]

theorem run_bind_error {e : ε} (h : action s = .error e s') :
    (action >>= next) s = .error e s' := by
  show EStateM.bind action next s = _
  rw [EStateM.bind, h]

theorem of_run_bind {b : β} (h : (action >>= next) s = .ok b s') :
    ∃ a t, action s = .ok a t ∧ next a t = .ok b s' := by
  change EStateM.bind action next s = _ at h
  unfold EStateM.bind at h
  split at h
  next a t ha => exact ⟨a, t, ha, h⟩
  next => cases h

end

section
variable {items more : List α} {item : α} {f : α → EStateM ε σ Unit} {s s' t : σ}

theorem run_forM_cons (h : f item s = .ok () t) : (item :: items).forM f s = items.forM f t :=
  run_bind h

theorem of_run_forM_cons (h : (item :: items).forM f s = .ok () s') :
    ∃ t, f item s = .ok () t ∧ items.forM f t = .ok () s' := by
  obtain ⟨⟨⟩, t, hi, hr⟩ := of_run_bind h
  exact ⟨t, hi, hr⟩

theorem run_forM_append (h : items.forM f s = .ok () t) :
    (items ++ more).forM f s = more.forM f t := by
  induction items generalizing s with
  | nil =>
    cases h
    rfl
  | cons item rest ih =>
    obtain ⟨u, hi, hr⟩ := of_run_forM_cons h
    exact (run_forM_cons hi).trans (ih hr)

theorem of_run_forM_append (h : (items ++ more).forM f s = .ok () s') :
    ∃ t, items.forM f s = .ok () t ∧ more.forM f t = .ok () s' := by
  induction items generalizing s with
  | nil => exact ⟨s, rfl, h⟩
  | cons item rest ih =>
    obtain ⟨u, hi, hr⟩ := of_run_forM_cons h
    obtain ⟨t, ht, hm⟩ := ih hr
    exact ⟨t, (run_forM_cons hi).trans ht, hm⟩

end

-- ---------------------------------------------------------------------------
-- What an action does not look at
-- ---------------------------------------------------------------------------

/-- A result with its state changed. -/
def mapState (f : σ → σ) : EStateM.Result ε σ α → EStateM.Result ε σ α
  | .ok a s => .ok a (f s)
  | .error e s => .error e (f s)

/-- An action does the same before a change of the state and after it. -/
def Commutes (f : σ → σ) (action : EStateM ε σ α) : Prop :=
  ∀ s, action (f s) = mapState f (action s)

namespace Commutes

variable {f : σ → σ} {action : EStateM ε σ α} {next : α → EStateM ε σ β}

theorem pure (a : α) : Commutes f (Pure.pure a : EStateM ε σ α) := fun _ => rfl

theorem throw (e : ε) : Commutes f (MonadExcept.throw e : EStateM ε σ α) := fun _ => rfl

theorem modify {g : σ → σ} (h : ∀ s, g (f s) = f (g s)) :
    Commutes f (modify g : EStateM ε σ PUnit) := by
  intro s
  show EStateM.Result.ok _ (g (f s)) = .ok _ (f (g s))
  rw [h s]

/-- What follows an action may have been chosen by the state that was changed. -/
theorem bind_run {later : α → EStateM ε σ β} (h : Commutes f action)
    (hn : ∀ a s, later a (f s) = mapState f (next a s)) (s : σ) :
    (action >>= later) (f s) = mapState f ((action >>= next) s) := by
  show EStateM.bind action later (f s) = mapState f (EStateM.bind action next s)
  unfold EStateM.bind
  rw [h s]
  cases action s with
  | ok a s' => exact hn a s'
  | error e s' => rfl

theorem bind (h : Commutes f action) (hn : ∀ a, Commutes f (next a)) :
    Commutes f (action >>= next) :=
  h.bind_run hn

theorem get_bind {next : σ → EStateM ε σ β} (h : ∀ s, next (f s) (f s) = mapState f (next s s)) :
    Commutes f (get >>= next) := h

/-- What is read of the state is the same after the change. -/
theorem read {next : σ → EStateM ε σ β} (hr : ∀ s, next (f s) = next s)
    (hn : ∀ s, Commutes f (next s)) : Commutes f (get >>= next) := by
  refine get_bind fun s => ?_
  rw [hr s]
  exact hn s s

theorem throw_bind (e : ε) {next : α → EStateM ε σ β} :
    Commutes f (MonadExcept.throw e >>= next) := fun _ => rfl

theorem ofExcept (result : Except ε α) :
    Commutes f (MonadExcept.ofExcept result : EStateM ε σ α) := by
  cases result with
  | error e => exact throw e
  | ok a => exact pure a

theorem forM {items : List β} {act : β → EStateM ε σ PUnit} (h : ∀ item, Commutes f (act item)) :
    Commutes f (items.forM act) := by
  induction items with
  | nil => exact pure _
  | cons item rest ih => exact (h item).bind fun _ => ih

theorem run {a : α} {s s' : σ} (h : Commutes f action) (hr : action s = .ok a s') :
    action (f s) = .ok a (f s') := by
  rw [h s, hr]
  rfl

end Commutes

-- ---------------------------------------------------------------------------
-- What an action keeps
-- ---------------------------------------------------------------------------

/-- What holds before an action holds after it, if it succeeds. -/
def Keeps (p : σ → Prop) (action : EStateM ε σ α) : Prop :=
  ∀ s, p s → Triple action s (fun _ s' => p s') fun _ _ => True

namespace Keeps

variable {p : σ → Prop} {action : EStateM ε σ α} {next : α → EStateM ε σ β}

theorem pure (a : α) : Keeps p (Pure.pure a : EStateM ε σ α) := fun _ h => .pure h

theorem throw (e : ε) : Keeps p (MonadExcept.throw e : EStateM ε σ α) := fun _ _ => .throw trivial

theorem throw_bind (e : ε) {next : α → EStateM ε σ β} :
    Keeps p (MonadExcept.throw e >>= next) := fun _ _ => trivial

theorem modify {g : σ → σ} (h : ∀ s, p s → p (g s)) : Keeps p (modify g : EStateM ε σ PUnit) :=
  fun s hs => .of_run rfl (h s hs)

theorem bind (h : Keeps p action) (hn : ∀ a, Keeps p (next a)) : Keeps p (action >>= next) :=
  fun s hs => (h s hs).bind fun a s' => hn a s'

theorem read {next : σ → EStateM ε σ β} (h : ∀ s, p s → Keeps p (next s)) :
    Keeps p (get >>= next) :=
  fun s hs => .step rfl (h s hs s hs)

theorem forM {items : List β} {act : β → EStateM ε σ PUnit} (h : ∀ item, Keeps p (act item)) :
    Keeps p (items.forM act) := by
  induction items with
  | nil => exact pure _
  | cons item rest ih => exact (h item).bind fun _ => ih

end Keeps

/-- What holds before an action holds after it, whether or not it fails. -/
def Maintains (p : σ → Prop) (action : EStateM ε σ α) : Prop :=
  ∀ s, p s → Triple action s (fun _ s' => p s') fun _ s' => p s'

namespace Maintains

variable {p : σ → Prop} {action : EStateM ε σ α} {next : α → EStateM ε σ β}

theorem pure (a : α) : Maintains p (Pure.pure a : EStateM ε σ α) := fun _ h => .pure h

theorem throw (e : ε) : Maintains p (MonadExcept.throw e : EStateM ε σ α) := fun _ h => .throw h

theorem throw_bind (e : ε) {next : α → EStateM ε σ β} :
    Maintains p (MonadExcept.throw e >>= next) := fun _ h => h

theorem modify {g : σ → σ} (h : ∀ s, p s → p (g s)) :
    Maintains p (modify g : EStateM ε σ PUnit) := fun s hs => .of_run rfl (h s hs)

theorem bind (h : Maintains p action) (hn : ∀ a, Maintains p (next a)) :
    Maintains p (action >>= next) :=
  fun s hs => (h s hs).bind fun a s' => hn a s'

theorem read {next : σ → EStateM ε σ β} (h : ∀ s, p s → Maintains p (next s)) :
    Maintains p (get >>= next) :=
  fun s hs => .step rfl (h s hs s hs)

theorem forM {items : List β} {act : β → EStateM ε σ PUnit}
    (h : ∀ item, Maintains p (act item)) : Maintains p (items.forM act) := by
  induction items with
  | nil => exact pure _
  | cons item rest ih => exact (h item).bind fun _ => ih

end Maintains

end XmlStore
