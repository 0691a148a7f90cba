import PgCutover.Lib.Runs
import PgCutover.Privileges.NewOwner

/-!
# Chains of grant options

The list of an object changes by grants, by revokes and by a new owner.
-/

namespace PgCutover.Privileges

open Lib Relation

variable {acl : Acl} {g r oldOwnerId newOwnerId : Oid} {i : ℕ}

/-! ### The system -/

/-- An object: its owner and its list. -/
structure State where
  ownerId : Oid
  acl : Acl
  deriving DecidableEq, Repr

/-- What can happen to the list. -/
inductive Step
  | grant (modAip : AclItem) (behavior : DropBehavior)
  | revoke (modAip : AclItem) (behavior : DropBehavior)
  | newOwner (newOwnerId : Oid)
  deriving DecidableEq, Repr

/-- The grant options that are needed to grant the rights of an item. -/
def neededOptions (modAip : AclItem) : AclMode :=
  grantOptionFor (getPrivs modAip.aiPrivs ||| getGoptions modAip.aiPrivs)

/-- A grant is made by the owner or by a role that has the needed grant options, and gives
none to everyone; a new owner is a role. -/
def State.Allows (s : State) : Step → Prop
  | .grant modAip _ =>
    (modAip.aiGrantor = s.ownerId ∨
      aclmask s.acl modAip.aiGrantor s.ownerId (neededOptions modAip) .all =
        neededOptions modAip) ∧
      (modAip.aiGrantee = aclIdPublic → getGoptions modAip.aiPrivs = 0#64)
  | .revoke _ _ => True
  | .newOwner newOwnerId => newOwnerId ≠ aclIdPublic

instance (s : State) : (e : Step) → Decidable (s.Allows e)
  | .grant _ _ => inferInstanceAs (Decidable (_ ∧ _))
  | .revoke _ _ => isTrue trivial
  | .newOwner _ => inferInstanceAs (Decidable (_ ≠ _))

/-- The state after an update: an error leaves the list unchanged. -/
def State.after (s : State) : Except Failure Acl → Option State
  | .ok acl => some { s with acl := acl }
  | .error (.ereport _) => some s
  | .error .outOfFuel => none

/-- One step, undefined if it is not allowed. -/
def step (s : State) (e : Step) : Option State :=
  if s.Allows e then
    match e with
    | .grant modAip behavior =>
      s.after (aclupdate (fuelFor s.acl) s.acl modAip .add s.ownerId behavior)
    | .revoke modAip behavior =>
      s.after (aclupdate (fuelFor s.acl) s.acl modAip .del s.ownerId behavior)
    | .newOwner newOwnerId =>
      some { ownerId := newOwnerId, acl := aclnewowner s.acl s.ownerId newOwnerId }
  else none

/-- An object of which only the owner has privileges. -/
def ownPrivileges (ownerId : Oid) (privs : AclMode) : State where
  ownerId := ownerId
  acl := [{ aiGrantee := ownerId, aiGrantor := ownerId, aiPrivs := privs }]

/-- Every privilege and grant option of every item is backed by a chain of grant options
that starts at the owner. -/
def State.AllBacked (s : State) : Prop :=
  ∀ item ∈ s.acl, ∀ i, i < 32 →
    (item.aiPrivs.getLsbD i = true ∨ item.aiPrivs.getLsbD (32 + i) = true) →
    Backed (HasOption s.acl i) s.ownerId item.aiGrantor

/-- A grant by another role than the owner comes with the privilege wherever it comes with
the option, and closes no cycle of options between such roles; a revoke of what such a role
granted takes the option away with the privilege. -/
def State.Sound (s : State) : Step → Prop
  | .grant modAip _ => modAip.aiGrantor ≠ s.ownerId → ∀ i, i < 32 →
    modAip.aiPrivs.getLsbD (32 + i) = true →
      modAip.aiPrivs.getLsbD i = true ∧ (modAip.aiGrantee ≠ s.ownerId →
        ¬ ReflTransGen (Inner (HasOption s.acl i) s.ownerId) modAip.aiGrantee modAip.aiGrantor)
  | .revoke modAip _ => ClosedRevoke s.ownerId modAip
  | .newOwner _ => True

/-- All steps of the run meet the condition in the state before them. -/
def SoundRun : State → List Step → Prop
  | _, [] => True
  | s, e :: rest => s.Sound e ∧ ∀ t, step s e = some t → SoundRun t rest

/-! ### The invariant -/

/-- Every privilege is supported, and no support is circular. -/
structure Inv (s : State) : Prop where
  owner : s.ownerId ≠ aclIdPublic
  distinct : Distinct s.acl
  noPublic : NoPublicOption s.acl
  withPrivs : WithPrivs s.ownerId s.acl
  supported : SupportedBut s.ownerId (fun _ _ => False) s.acl
  acyclic : ∀ i, i < 32 → Acyclic (Inner (HasOption s.acl i) s.ownerId)

theorem Inv.ofOwnPrivileges {ownerId : Oid} (howner : ownerId ≠ aclIdPublic) (privs : AclMode) :
    Inv (ownPrivileges ownerId privs) := by
  have honly :
      ∀ g r i, Has (ownPrivileges ownerId privs).acl g r i → g = ownerId ∧ r = ownerId := by
    rintro g r i ⟨_, hitem, rfl, rfl, -⟩
    rw [ownPrivileges, List.mem_singleton] at hitem
    rw [hitem]
    exact ⟨rfl, rfl⟩
  refine ⟨howner, List.pairwise_singleton _ _, ?_, ?_, ?_, ?_⟩
  · intro g i _ hhas
    exact howner (honly _ _ _ hhas).2.symm
  · intro g r i _ hg hhas
    exact absurd (honly _ _ _ hhas).1 hg
  · intro g r i _ hhas
    exact .inl (honly _ _ _ hhas).1
  · -- there is no option between other roles
    intro i _ x hx
    obtain ⟨y, hxy, -⟩ := TransGen.head'_iff.1 hx
    exact hxy.2.1 (honly _ _ _ hxy.1).1

variable {s : State}

theorem Inv.supported_hasOption (h : Inv s) {i : ℕ} (hi : i < 32) :
    Supported (HasOption s.acl i) s.ownerId := by
  intro g r hoption
  by_cases hg : g = s.ownerId
  · exact .inl hg
  · rcases h.supported g r i hi (h.withPrivs g r i hi hg hoption) with howner | ho | hfalse
    · exact .inl howner
    · exact .inr ho
    · exact hfalse.elim

theorem finite_grantors (acl : Acl) (i : ℕ) : {g | ∃ r, HasOption acl i g r}.Finite := by
  refine ((grantSet acl).finite_toSet.image Prod.fst).subset ?_
  rintro g ⟨r, hoption⟩
  exact ⟨(g, r, 32 + i), mem_grantSet.2 hoption, rfl⟩

theorem Inv.allBacked (h : Inv s) : s.AllBacked := by
  intro item hitem i hi hbit
  have hbacked : ∀ g r, HasOption s.acl i g r → Backed (HasOption s.acl i) s.ownerId g :=
    fun g r hoption => backed_of_supported (h.supported_hasOption hi) (h.acyclic i hi)
      (finite_grantors s.acl i) hoption
  rcases hbit with hpriv | hoption
  · rcases h.supported _ _ i hi ⟨item, hitem, rfl, rfl, hpriv⟩ with howner | ⟨o, ho⟩ | hfalse
    · rw [howner]
      exact ReflTransGen.refl
    · exact (hbacked _ _ ho).tail ho
    · exact hfalse.elim
  · exact hbacked _ _ ⟨item, hitem, rfl, rfl, hoption⟩

/-! ### Steps -/

theorem State.Allows.grantor (hnoPublic : NoPublicOption s.acl) {modAip : AclItem}
    {behavior : DropBehavior} (h : s.Allows (.grant modAip behavior)) {i : ℕ} (hi : i < 32)
    (hbit : modAip.aiPrivs.getLsbD i = true) :
    modAip.aiGrantor = s.ownerId ∨ ∃ o, HasOption s.acl i o modAip.aiGrantor := by
  rcases h.1 with howner | hmask
  · exact .inl howner
  · have hneeded : (neededOptions modAip).getLsbD (32 + i) = true := by
      rw [neededOptions, getLsbD_grantOptionFor_add, BitVec.getLsbD_or, getLsbD_getPrivs, hbit]
      simp [hi]
    rw [← hmask, neededOptions, aclmask_option] at hneeded
    rcases hneeded.2 with howner | ⟨o, hpublic | hoption⟩
    · exact .inl howner
    · exact absurd hpublic (hnoPublic o i hi)
    · exact .inr ⟨o, hoption⟩

theorem Inv.grant (h : Inv s) {modAip : AclItem} {behavior : DropBehavior}
    (hallows : s.Allows (.grant modAip behavior)) (hsound : s.Sound (.grant modAip behavior)) :
    Inv { s with acl := added s.acl modAip } := by
  have hold {g r : Oid} {i : ℕ} (hhas : Has s.acl g r i) : Has (added s.acl modAip) g r i :=
    (has_added h.distinct).2 (.inl hhas)
  refine ⟨h.owner, distinct_updateItem h.distinct, ?_, ?_, ?_, ?_⟩
  · intro g i hi hhas
    rcases (has_added h.distinct).1 hhas with hhas | ⟨-, hpublic, hbit⟩
    · exact h.noPublic g i hi hhas
    · have hzero := eq_zero_iff_getLsbD.1 (hallows.2 hpublic.symm) i
      rw [getLsbD_getGoptions, hbit, decide_eq_true hi] at hzero
      exact Bool.false_ne_true hzero.symm
  · intro g r i hi hg hhas
    rcases (has_added h.distinct).1 hhas with hhas | ⟨rfl, rfl, hbit⟩
    · exact hold (h.withPrivs g r i hi hg hhas)
    · exact (has_added h.distinct).2 (.inr ⟨rfl, rfl, (hsound hg i hi hbit).1⟩)
  · intro g r i hi hhas
    rcases (has_added h.distinct).1 hhas with hhas | ⟨rfl, rfl, hbit⟩
    · exact (h.supported g r i hi hhas).imp_right
        fun hsupport => hsupport.imp_left fun ⟨o, ho⟩ => ⟨o, hold ho⟩
    · exact (hallows.grantor h.noPublic hi hbit).imp_right fun ⟨o, ho⟩ => .inl ⟨o, hold ho⟩
  · intro i hi
    by_cases hnew : modAip.aiGrantor ≠ s.ownerId ∧ modAip.aiGrantee ≠ s.ownerId ∧
        modAip.aiPrivs.getLsbD (32 + i) = true
    · -- one option between other roles is new, and it closes no cycle
      obtain ⟨hgrantor, hgrantee, hbit⟩ := hnew
      refine (h.acyclic i hi).insert ?_ ((hsound hgrantor i hi hbit).2 hgrantee)
      rintro x y ⟨hhas, hx, hy⟩
      rcases (has_added h.distinct).1 hhas with hhas | ⟨rfl, rfl, -⟩
      · exact .inl ⟨hhas, hx, hy⟩
      · exact .inr ⟨rfl, rfl⟩
    · refine (h.acyclic i hi).mono ?_
      rintro x y ⟨hhas, hx, hy⟩
      rcases (has_added h.distinct).1 hhas with hhas | ⟨rfl, rfl, hbit⟩
      · exact ⟨hhas, hx, hy⟩
      · exact absurd ⟨hx, hy, hbit⟩ hnew

theorem Inv.revoke (h : Inv s) {acl : Acl} {closed : Prop} (hclosed : closed)
    (hrevoked : Revoked s.ownerId (fun _ _ => False) closed s.acl acl) :
    Inv { s with acl := acl } := by
  refine ⟨h.owner, hrevoked.distinct, h.noPublic.mono hrevoked.sub,
    hrevoked.withPrivs hclosed h.withPrivs, ?_, ?_⟩
  · refine hrevoked.supported _ h.noPublic (h.supported.mono fun g r i _ _ hfalse => ?_)
    exact hfalse.elim
  · intro i hi
    refine (h.acyclic i hi).mono ?_
    rintro x y ⟨hhas, hx, hy⟩
    exact ⟨hrevoked.sub _ _ _ hhas, hx, hy⟩

theorem renameRole_ne {oldOwnerId newOwnerId role : Oid}
    (h : renameRole oldOwnerId newOwnerId role ≠ newOwnerId) :
    role ≠ oldOwnerId ∧ renameRole oldOwnerId newOwnerId role = role := by
  unfold renameRole at h ⊢
  split_ifs at h ⊢ with hrole
  · exact absurd rfl h
  · exact ⟨hrole, rfl⟩

theorem Inv.newOwner (h : Inv s) {newOwnerId : Oid} (howner : newOwnerId ≠ aclIdPublic) :
    Inv { ownerId := newOwnerId, acl := aclnewowner s.acl s.ownerId newOwnerId } := by
  refine ⟨howner, distinct_aclnewowner h.distinct _ _, ?_, ?_, ?_, ?_⟩
  · intro g i hi hhas
    obtain ⟨g₀, _, -, hr, hhas⟩ := has_aclnewowner.1 hhas
    have hpublic := (renameRole_ne (hr ▸ howner.symm)).2
    rw [hpublic] at hr
    exact h.noPublic g₀ i hi (hr ▸ hhas)
  · intro g r i hi hg hhas
    obtain ⟨g₀, r₀, rfl, rfl, hbefore⟩ := has_aclnewowner.1 hhas
    exact has_aclnewowner.2 ⟨g₀, r₀, rfl, rfl, h.withPrivs _ _ i hi (renameRole_ne hg).1 hbefore⟩
  · intro g r i hi hhas
    obtain ⟨g₀, r₀, rfl, rfl, hbefore⟩ := has_aclnewowner.1 hhas
    rcases h.supported g₀ r₀ i hi hbefore with rfl | ⟨o, ho⟩ | hfalse
    · exact .inl (if_pos rfl)
    · exact .inr (.inl ⟨_, has_aclnewowner.2 ⟨o, g₀, rfl, rfl, ho⟩⟩)
    · exact hfalse.elim
  · -- what is left between other roles was there before
    intro i hi
    refine (h.acyclic i hi).mono ?_
    rintro x y ⟨hhas, hx, hy⟩
    obtain ⟨_, _, rfl, rfl, hbefore⟩ := has_aclnewowner.1 hhas
    obtain ⟨hg₀, hg⟩ := renameRole_ne hx
    obtain ⟨hr₀, hr⟩ := renameRole_ne hy
    rw [hg, hr]
    exact ⟨hbefore, hg₀, hr₀⟩

/-- An allowed step from a state of the invariant ends, and keeps the invariant if it meets
the condition. -/
theorem Inv.step (h : Inv s) {e : Step} (hallows : s.Allows e) :
    ∃ t, Privileges.step s e = some t ∧ (s.Sound e → Inv t) := by
  rw [Privileges.step.eq_def, if_pos hallows]
  cases e with
  | grant modAip behavior =>
    rcases @aclupdate_add s.acl s.ownerId h.distinct modAip behavior with hok | herror
    · simp only [hok]
      exact ⟨_, rfl, fun hsound => h.grant hallows hsound⟩
    · simp only [herror]
      exact ⟨_, rfl, fun _ => h⟩
  | revoke modAip behavior =>
    have hspec := @aclupdate_del s.acl s.ownerId h.distinct modAip behavior
    simp only
    cases hresult : aclupdate (fuelFor s.acl) s.acl modAip .del s.ownerId behavior with
    | error =>
      rw [hresult] at hspec
      obtain ⟨-, rfl⟩ := hspec
      exact ⟨s, rfl, fun _ => h⟩
    | ok =>
      rw [hresult] at hspec
      exact ⟨_, rfl, fun hsound => h.revoke hsound hspec⟩
  | newOwner => exact ⟨_, rfl, fun _ => h.newOwner hallows⟩

/-- The invariant holds along every run that meets the condition. -/
theorem Inv.trace {t : State} (h : Inv s) {l : List Step} (hsound : SoundRun s l)
    (hrun : trace Privileges.step s l = some t) : Inv t := by
  induction l generalizing s with
  | nil =>
    cases hrun
    exact h
  | cons e _ ih =>
    obtain ⟨u, hu, hrest⟩ := trace_cons_eq_some.1 hrun
    have hallows : s.Allows e := by
      by_contra hnot
      rw [Privileges.step.eq_def, if_neg hnot] at hu
      exact absurd hu (by simp)
    obtain ⟨u', hu', hinv⟩ := h.step hallows
    obtain rfl : u = u' := Option.some.inj (hu.symm.trans hu')
    exact ih (hinv hsound.1) (hsound.2 u hu) hrest

/-- **Backing.** From a list that holds only the owner's own privileges, in every run whose
steps meet the condition, every privilege and every grant option of the state reached is
backed by a chain of grant options from the current owner; and every step that is allowed
there ends. -/
theorem grants_backed (ownerId : Oid) (howner : ownerId ≠ aclIdPublic) (privs : AclMode)
    (l : List Step) (hsound : SoundRun (ownPrivileges ownerId privs) l) (t : State)
    (hrun : trace step (ownPrivileges ownerId privs) l = some t) :
    t.AllBacked ∧ ∀ e, t.Allows e → (step t e).isSome := by
  have hinv := (Inv.ofOwnPrivileges howner privs).trace hsound hrun
  refine ⟨hinv.allBacked, fun e he => ?_⟩
  obtain ⟨u, hu, -⟩ := hinv.step he
  rw [hu]
  rfl

/-! ### Grants that support only each other -/

/-- The right to read, without and with the option to grant it. -/
def selectPriv : AclMode := privsGoptions 2#64 0#64

@[inherit_doc selectPriv]
def selectOption : AclMode := privsGoptions 2#64 2#64

/-- Role 1 owns the object. It gives the option to roles 2 and 3, which give it to each
other; then the owner revokes both of its grants. -/
def mutualGrants : List Step :=
  [ .grant { aiGrantor := 1, aiGrantee := 2, aiPrivs := selectOption } .restrict,
    .grant { aiGrantor := 1, aiGrantee := 3, aiPrivs := selectOption } .restrict,
    .grant { aiGrantor := 2, aiGrantee := 3, aiPrivs := selectOption } .restrict,
    .grant { aiGrantor := 3, aiGrantee := 2, aiPrivs := selectOption } .restrict,
    .revoke { aiGrantor := 1, aiGrantee := 2, aiPrivs := selectOption } .cascade,
    .revoke { aiGrantor := 1, aiGrantee := 3, aiPrivs := selectOption } .cascade ]

/-- The list after that: the owner's own privilege and the two mutual grants. -/
def mutualState : State where
  ownerId := 1
  acl :=
    [ { aiGrantee := 1, aiGrantor := 1, aiPrivs := selectPriv },
      { aiGrantee := 3, aiGrantor := 2, aiPrivs := selectOption },
      { aiGrantee := 2, aiGrantor := 3, aiPrivs := selectOption } ]

theorem mutualGrants_run :
    trace step (ownPrivileges 1 selectPriv) mutualGrants = some mutualState := by
  decide +kernel

/-- No option leads from the owner to another role. -/
theorem mutualState_chain {role : Oid} (h : Backed (HasOption mutualState.acl 1) 1 role) :
    role = 1 := by
  induction h with
  | refl => rfl
  | tail _ hoption ih =>
    subst ih
    obtain ⟨_, hitem, hgrantor, -, hbit⟩ := hoption
    simp only [mutualState, List.mem_cons, List.not_mem_nil, or_false] at hitem
    rcases hitem with rfl | rfl | rfl
    · exact absurd hbit (by decide)
    all_goals exact absurd hgrantor (by decide)

/-- Both mutual grants survive, and no chain from the owner backs them. -/
theorem mutualGrants_not_backed :
    trace step (ownPrivileges 1 selectPriv) mutualGrants = some mutualState ∧
      ¬ mutualState.AllBacked := by
  refine ⟨mutualGrants_run, fun h => ?_⟩
  have hbacked := h { aiGrantee := 3, aiGrantor := 2, aiPrivs := selectOption }
    (by simp [mutualState]) 1 (by omega) (.inl (by decide))
  exact absurd (mutualState_chain hbacked) (by decide)

/-- A chain of two options, the first of which is revoked with what depends on it. -/
def revokedChain : List Step :=
  [ .grant { aiGrantor := 1, aiGrantee := 2, aiPrivs := selectOption } .restrict,
    .grant { aiGrantor := 2, aiGrantee := 3, aiPrivs := selectPriv } .restrict,
    .newOwner 4, .revoke { aiGrantor := 4, aiGrantee := 2, aiPrivs := selectOption } .restrict,
    .revoke { aiGrantor := 4, aiGrantee := 2, aiPrivs := selectOption } .cascade ]

theorem grants_backed_revokedChain :
    1 ≠ aclIdPublic ∧ SoundRun (ownPrivileges 1 selectPriv) revokedChain ∧
      ∃ t, trace step (ownPrivileges 1 selectPriv) revokedChain = some t ∧ t.AllBacked := by
  have howner : 1 ≠ aclIdPublic := Nat.one_ne_zero
  have hsound : SoundRun (ownPrivileges 1 selectPriv) revokedChain := by
    refine ⟨fun h => absurd rfl h, fun t₁ _ => ⟨fun _ i hi hbit => ?_, fun t₂ _ => ⟨trivial,
      fun t₃ _ => ⟨closedRevoke_privsGoptions _ _ _ _, fun t₄ _ =>
        ⟨closedRevoke_privsGoptions _ _ _ _, fun t₅ _ => trivial⟩⟩⟩⟩⟩
    -- the second grant comes without the option
    rw [selectPriv, getLsbD_privsGoptions_add _ _ hi, BitVec.getLsbD_zero] at hbit
    exact absurd hbit Bool.false_ne_true
  have hsome : (trace step (ownPrivileges 1 selectPriv) revokedChain).isSome = true := by
    decide +kernel
  obtain ⟨t, ht⟩ := Option.isSome_iff_exists.1 hsome
  exact ⟨howner, hsound, t, ht, (grants_backed 1 howner selectPriv revokedChain hsound t ht).1⟩

end PgCutover.Privileges
