import Custody.Proofs.Plans

/-!
# What is planned

* `Machine.plan_planned`: a plan that does not fail has one of the effects that its step can have.
* `Machine.plan_admits`: the machine admits it.
-/

namespace Custody

namespace Machine

variable {Y : Option Place} {m : Machine} {p q : Path} {loc other : Location} {x y : Slot}
  {e : Effect}
  {s : Step}

/-! ### Ownership -/

section Ownership

variable {src dst target : Path}

theorem planShare_planned (h : m.planShare src dst = .ok e) : m.Planned s e := by
  simp only [planShare, bind_eq_ok] at h
  obtain ⟨⟨loc, u⟩, hu, h⟩ := h
  dsimp only at h
  split at h
  · cases h
  · cases h
    exact .share s (findUnique_ok hu)

theorem planAdopt_planned {how : Adoption} (h : m.planAdopt src how dst = .ok e) :
    m.Planned s e := by
  simp only [planAdopt, bind_eq_ok] at h
  obtain ⟨⟨loc, r⟩, hr, h⟩ := h
  cases how with
  | unique =>
    cases h
    exact .adoptUnique s (findRaw_ok hr)
  | shared =>
    dsimp only at h
    split at h
    · cases h
      exact .adopt s (findRaw_ok hr)
    · cases h
  | sharedIn =>
    cases h
    exact .adopt s (findRaw_ok hr)

theorem planResetRaw_planned (h : m.planResetRaw target src = .ok e) : m.Planned s e := by
  simp only [planResetRaw, bind_eq_ok] at h
  obtain ⟨⟨⟨loc, x⟩, ⟨rawLoc, y⟩⟩, hxy, h⟩ := h
  split at h
  · next heq =>
    cases heq
    split at h
    · cases h
      exact .resetRaw s (findTwo_ok hxy)
    · cases h
  · cases h

theorem planClone_planned (h : m.planClone src dst = .ok e) : m.Planned s e := by
  simp only [planClone, bind_eq_ok] at h
  obtain ⟨⟨loc, x⟩, hx, h⟩ := h
  split at h
  · next heq =>
    cases heq
    cases h
    exact .cloneStrong s (find_ok hx)
  · next heq =>
    cases heq
    cases h
    exact .cloneWeak s (find_ok hx)
  · cases h

theorem planCloneFrom_planned (h : m.planCloneFrom target src = .ok e) : m.Planned s e := by
  simp only [planCloneFrom, bind_eq_ok] at h
  obtain ⟨⟨⟨loc, x⟩, ⟨srcLoc, y⟩⟩, hxy, h⟩ := h
  split at h
  · next heq =>
    cases heq
    split at h
    · next hk =>
      cases h
      exact .assignStrong s (findTwo_ok hxy) hk
    · cases h
  · next heq =>
    cases heq
    split at h
    · next hk =>
      cases h
      exact .assignWeak s (findTwo_ok hxy) hk
    · cases h
  · cases h

theorem planSwap_planned {left right : Path} (h : m.planSwap left right = .ok e) :
    m.Planned s e := by
  simp only [planSwap, bind_eq_ok] at h
  obtain ⟨⟨⟨loc, x⟩, ⟨otherLoc, y⟩⟩, hxy, h⟩ := h
  dsimp only at h
  split at h
  · cases h
    exact .swap s (findTwo_ok hxy)
  · cases h

theorem planReset_planned (h : m.planReset target = .ok e) : m.Planned s e := by
  simp only [planReset, bind_eq_ok] at h
  obtain ⟨⟨loc, x⟩, hx, h⟩ := h
  dsimp only at h
  split at h
  · next hnull =>
    cases h
    exact .reset s (find_ok hx) hnull
  · cases h

theorem planResetWith_planned {value : Literal} (h : m.planResetWith target value = .ok e) :
    m.Planned (.resetWith target value) e := by
  simp only [planResetWith, bind_eq_ok] at h
  obtain ⟨⟨loc, p⟩, hp, h⟩ := h
  dsimp only at h
  split at h
  · simp only [bind_eq_ok] at h
    obtain ⟨v, hv, h⟩ := h
    cases h
    exact .resetWith (findStrong_ok hp) hv
  · cases h

theorem planMove_planned (h : m.planMove src dst = .ok e) : m.Planned (.move src dst) e := by
  simp only [planMove, bind_eq_ok] at h
  obtain ⟨l, hl, ⟨loc, x⟩, hx, h⟩ := h
  cases h
  exact .move (locate_ok hl) (find_ok hx)

end Ownership

/-! ### Access -/

section Access

variable {target left right : Path}

theorem planGet_planned {deref : Bool} (h : m.planGet target deref = .ok e) : m.Planned s e := by
  simp only [planGet, bind_eq_ok] at h
  obtain ⟨⟨loc, x⟩, -, h⟩ := h
  dsimp only at h
  split at h
  · cases h
    exact .answer s _
  · split at h
    · cases h
    · cases h
      exact .answer s _
  · cases h

theorem planSet_planned {value : Literal} {throughDeref : Bool}
    (h : m.planSet target value throughDeref = .ok e) : m.Planned s e := by
  simp only [planSet, bind_eq_ok] at h
  obtain ⟨⟨loc, x⟩, hx, h⟩ := h
  dsimp only at h
  split at h
  · next p hp =>
    split at h
    · next c hc =>
      cases h
      exact .write s (find_ok hx) hp hc
    · cases h
      exact .answer s _
  · split at h
    · split at h
      · cases h
      · cases h
        exact .answer s _
    · cases h
      exact .answer s _
  · cases h

theorem planArea_planned (h : m.planArea target = .ok e) : m.Planned s e := by
  simp only [planArea, bind_eq_ok] at h
  obtain ⟨⟨loc, p⟩, -, h⟩ := h
  dsimp only at h
  split at h
  · cases h
  · split at h
    all_goals
      cases h
      exact .answer s _

theorem planFormat_planned {spec : String} (h : m.planFormat target spec = .ok e) :
    m.Planned s e := by
  simp only [planFormat, bind_eq_ok] at h
  obtain ⟨⟨loc, x⟩, -, h⟩ := h
  dsimp only at h
  split at h
  · cases h
    exact .answer s _
  · cases h

theorem planCompare_planned (h : m.planCompare left right = .ok e) : m.Planned s e := by
  simp only [planCompare, bind_eq_ok] at h
  obtain ⟨⟨⟨loc, x⟩, ⟨otherLoc, y⟩⟩, -, h⟩ := h
  dsimp only at h
  split at h
  · cases h
  · split at h
    · cases h
      exact .answer s _
    · cases h
      exact .answer s _
    · cases h

theorem planOwner_planned (h : m.planOwner left right = .ok e) : m.Planned s e := by
  simp only [planOwner, bind_eq_ok] at h
  obtain ⟨⟨⟨loc, x⟩, ⟨otherLoc, y⟩⟩, -, h⟩ := h
  dsimp only at h
  split at h
  · cases h
    exact .answer s _
  · cases h

theorem planSets_planned {keys : List Path} {order : OrderBy} {probe : Option Path}
    (h : m.planSets keys order probe = .ok e) : m.Planned s e := by
  simp only [planSets, bind_eq_ok] at h
  obtain ⟨xs, -, ys, -, h⟩ := h
  split at h
  · obtain ⟨as, -, h⟩ := bind_eq_ok.mp h
    obtain ⟨a, -, h⟩ := bind_eq_ok.mp h
    cases h
    exact .answer s _
  · split at h
    · cases h
    · obtain ⟨as, -, h⟩ := bind_eq_ok.mp h
      obtain ⟨a, -, h⟩ := bind_eq_ok.mp h
      cases h
      exact .answer s _

end Access

/-! ### Views -/

section Views

variable {src dst owner like : Path} {part : Option Selector} {during : List Step} {listed : Bool}

theorem planMap_planned (h : m.planMap src part dst during listed = .ok e) :
    m.Planned (.map src part dst during listed) e := by
  simp only [planMap, bind_eq_ok] at h
  obtain ⟨⟨loc, x⟩, hx, h⟩ := h
  dsimp only at h
  split at h
  · next ht =>
    cases h
    exact .map (find_ok hx) (.inl ht)
  · next ht =>
    cases h
    refine .mapWeak (find_ok hx) (.inl ht) ?_
    simp only [attempted?, hx]
    exact if_pos (Option.isSome_iff_exists.mpr ⟨_, ht⟩)
  · cases h

theorem planTryMap_planned (h : m.planTryMap src part dst during listed = .ok e) :
    m.Planned (.tryMap src part dst during listed) e := by
  simp only [planTryMap, bind_eq_ok] at h
  obtain ⟨⟨loc, p⟩, hp, h⟩ := h
  dsimp only at h
  split at h
  · next ht =>
    cases h
    exact .tryMap (findStrong_ok hp) (.inr ht)
  · cases h

/-- A cast leads to null or to a part of the view it starts from. -/
theorem leadsInto_castView {Y : Option Place} {h : Heap} {s : Strong} {c : Cast} {k : Kind}
    {view : Option (Option Place)} (hc : castView h s c = .ok (k, view)) {v : Option Place}
    (hv : view = some v) : LeadsInto Y h s.kind s.view k v := by
  subst hv
  unfold castView at hc
  split at hc
  · cases hc
    exact .refl _
  · split at hc
    · next hpath =>
      cases hc
      rw [Option.bind_some] at hpath
      cases s.view with
      | none => exact .null _ _ _
      | some u =>
        exact .part (fun hl => absurd hl (Heap.label_notMem_staticPath? hpath)) (·.staticCast hpath)
    · cases hc
  · split at hc
    · next hpath =>
      rw [Option.bind_some] at hpath
      split at hc
      · cases hc
        exact .null _ _ _
      · next u hu =>
        split at hc
        · next hsome =>
          cases hc
          rw [hu]
          exact .part (fun hl => absurd hl (Heap.label_notMem_reinterpretPath? hpath))
            (·.reinterpret hpath hsome)
        · cases hc
    · cases hc
  · split at hc
    · cases hc
    · split at hc
      · cases hc
      · split at hc
        · next c hread =>
          split at hc
          · next hkind =>
            cases hc
            refine .same fun p hp _ => ⟨c, ?_, .inr hkind⟩
            simpa only [Strong.get?, hp, Option.bind_some] using hread
          · cases hc
        · cases hc

theorem planCast_planned {c : Cast} (h : m.planCast src c dst = .ok e) : m.Planned s e := by
  simp only [planCast, bind_eq_ok] at h
  obtain ⟨⟨loc, p⟩, hp, ⟨k, view⟩, hc, h⟩ := h
  cases h
  exact .cast s (findStrong_ok hp) fun _ => leadsInto_castView hc

/-- The view of an alias is null or a standing value. -/
theorem planAlias_planned {k : Kind} {view : Option Place}
    (hview : ∀ k' u, LeadsInto s.yield? m.heap k' u k view)
    (h : m.planAlias owner k view dst = .ok e) : m.Planned s e := by
  simp only [planAlias, bind_eq_ok] at h
  obtain ⟨⟨loc, p⟩, hp, h⟩ := h
  cases h
  refine .cast s (findStrong_ok hp) ?_
  rintro v ⟨⟩
  exact hview _ _

theorem planAliasLike_planned (h : m.planAliasLike owner like dst = .ok e) : m.Planned s e := by
  simp only [planAliasLike, bind_eq_ok] at h
  obtain ⟨⟨⟨loc, x⟩, ⟨likeLoc, y⟩⟩, hxy, h⟩ := h
  split at h
  · next heq =>
    cases heq
    split at h
    · next hb =>
      cases h
      exact .aliasLike s (findTwo_ok hxy) hb
    · cases h
  · cases h

end Views

/-! ### All steps -/

/-- A plan is one of those that its step can have. -/
theorem plan_planned (h : m.plan s = .ok e) : m.Planned s e := by
  cases s with
  | new kind value a dst =>
    simp only [plan, bind_eq_ok] at h
    obtain ⟨v, hv, h⟩ := h
    cases h
    exact .construct hv
  | null kind dst | weakNull kind dst | uniqueNull kind a dst =>
    cases h
    exact .store _ ⟨rfl, rfl, rfl, rfl⟩ rfl
  | unique kind value a dst =>
    simp only [plan, bind_eq_ok] at h
    obtain ⟨v, hv, h⟩ := h
    cases h
    exact .constructUnique hv
  | raw kind value dst =>
    simp only [plan, bind_eq_ok] at h
    obtain ⟨v, hv, h⟩ := h
    cases h
    exact .constructRaw hv
  | promote src dst =>
    simp only [plan, bind_eq_ok] at h
    obtain ⟨⟨loc, u⟩, hu, h⟩ := h
    cases h
    exact .promote _ (findUnique_ok hu)
  | share src dst => exact planShare_planned h
  | release src dst | intoRaw src dst =>
    simp only [plan, bind_eq_ok] at h
    obtain ⟨⟨loc, u⟩, hu, h⟩ := h
    cases h
    exact .release _ (findUnique_ok hu)
  | adopt src how dst => exact planAdopt_planned h
  | resetRaw target src => exact planResetRaw_planned h
  | move src dst => exact planMove_planned h
  | drop target =>
    simp only [plan, bind_eq_ok] at h
    obtain ⟨⟨loc, x⟩, hx, h⟩ := h
    cases h
    exact .drop _ (find_ok hx)
  | clone src dst => exact planClone_planned h
  | cloneFrom target src => exact planCloneFrom_planned h
  | take src dst =>
    simp only [plan, bind_eq_ok] at h
    obtain ⟨⟨loc, p⟩, hp, h⟩ := h
    cases h
    exact .takeStrong _ (findStrong_ok hp)
  | swap left right => exact planSwap_planned h
  | reset target => exact planReset_planned h
  | resetWith target value => exact planResetWith_planned h
  | get target => exact planGet_planned h
  | deref target => exact planGet_planned h
  | set target value throughDeref => exact planSet_planned h
  | counts target =>
    simp only [plan, bind_eq_ok] at h
    obtain ⟨⟨loc, x⟩, -, h⟩ := h
    cases h
    exact .answer _ _
  | area target => exact planArea_planned h
  | format target spec => exact planFormat_planned h
  | compare left right => exact planCompare_planned h
  | owner left right => exact planOwner_planned h
  | sets keys order probe => exact planSets_planned h
  | downgrade src dst =>
    simp only [plan, bind_eq_ok] at h
    obtain ⟨⟨loc, p⟩, hp, h⟩ := h
    cases h
    exact .downgrade _ (findStrong_ok hp)
  | lock src dst | tryLock src dst =>
    simp only [plan, bind_eq_ok] at h
    obtain ⟨⟨loc, w⟩, hw, h⟩ := h
    cases h
    exact .lock (findWeak_ok hw) (by simp only [attempted?, hw])
  | map src part dst during listed => exact planMap_planned h
  | tryMap src part dst during listed => exact planTryMap_planned h
  | cast src c dst => exact planCast_planned h
  | aliasNull owner kind dst => exact planAlias_planned (fun _ _ => .null _ _ _) h
  | aliasStatic owner view dst => exact planAlias_planned (fun _ _ => .static _ _ _ rfl rfl) h
  | aliasLike owner like dst => exact planAliasLike_planned h
  | budget limit =>
    cases h
    exact .setBudget _ limit
  | resetMetrics =>
    cases h
    exact .resetMetrics
  | mark name =>
    cases h
    exact .remember
  | since name =>
    simp only [plan] at h
    split at h
    · cases h
      exact .answer _ _
    · cases h
  | loop rounds body =>
    cases h
    exact .loop
  | state | metrics | aside =>
    cases h
    exact .answer _ _
  | malformed => cases h

theorem plan_admits {s : Step} (hm : m.Resolves) (h : m.plan s = .ok e) : m.Admits s.yield? e :=
  (plan_planned h).admits hm

end Machine

end Custody
