import Mathlib.Data.List.Nodup
import Mathlib.Logic.Function.Basic

/-! Calls to a service. A client invokes a call, the service performs it, and the client gets
the reply of the performance or is refused without one; a client whose call is waiting does not
invoke another. Whatever the calls do in between, each is performed at most once and after it was
invoked, and the order of the performances extends the order in which each client invoked its
calls and the order of calls that were returned before others were invoked. -/

namespace Service

open Function List

/-- What is seen of a call. -/
inductive Moment (C Q R : Type)
  | invoked (client : C) (request : Q)
  | performed (request : Q) (reply : R)
  | returned (client : C) (reply : R)

inductive Phase (C Q R : Type)
  | new
  | waiting (client : C) (request : Q)
  | served (client : C) (request : Q) (reply : R)
  | over

variable {Id C Q R : Type} [DecidableEq Id]

abbrev Trace (Id C Q R : Type) := List (Id × Moment C Q R)

/-- One step of the calls, and what is seen of it. -/
inductive Step (refusal : R → Prop) (φ : Id → Phase C Q R) : Trace Id C Q R → (Id → Phase C Q R) →
    Prop
  | quiet : Step refusal φ [] φ
  | invoke {id : Id} {c : C} {q : Q} (h : φ id = .new) (hidle : ∀ id' q', φ id' ≠ .waiting c q') :
      Step refusal φ [(id, .invoked c q)] (update φ id (.waiting c q))
  | perform {id : Id} {c : C} {q : Q} {r : R} (h : φ id = .waiting c q) :
      Step refusal φ [(id, .performed q r)] (update φ id (.served c q r))
  | answer {id : Id} {c : C} {q : Q} {r : R} (h : φ id = .served c q r) :
      Step refusal φ [(id, .returned c r)] (update φ id .over)
  | refuse {id : Id} {c : C} {q : Q} {r : R} (h : φ id = .waiting c q) (hr : refusal r) :
      Step refusal φ [(id, .returned c r)] (update φ id .over)

/-- The runs from the start, where no call was invoked. -/
inductive Runs (refusal : R → Prop) : Trace Id C Q R → (Id → Phase C Q R) → Prop
  | start : Runs refusal [] fun _ => .new
  | step {t events : Trace Id C Q R} {φ φ' : Id → Phase C Q R} (h : Runs refusal t φ)
      (hstep : Step refusal φ events φ') : Runs refusal (t ++ events) φ'

section Mono

variable {t events : Trace Id C Q R} {φ φ' : Id → Phase C Q R} {refusal refusal' : R → Prop}

theorem Step.mono (himp : ∀ r, refusal r → refusal' r) (h : Step refusal φ events φ') :
    Step refusal' φ events φ' := by
  cases h with
  | quiet => exact .quiet
  | invoke h hidle => exact .invoke h hidle
  | perform h => exact .perform h
  | answer h => exact .answer h
  | refuse h hr => exact .refuse h (himp _ hr)

theorem Runs.mono (himp : ∀ r, refusal r → refusal' r) (h : Runs refusal t φ) :
    Runs refusal' t φ := by
  induction h with
  | start => exact .start
  | step _ hstep ih => exact ih.step (hstep.mono himp)

end Mono

/-! ## The course of one call -/

/-- What is seen of one call. -/
def course (t : Trace Id C Q R) (id : Id) : List (Moment C Q R) :=
  t.filterMap fun e => if e.1 = id then some e.2 else none

/-- What was seen of a call in each of its phases. -/
inductive Course (refusal : R → Prop) : Phase C Q R → List (Moment C Q R) → Prop
  | new : Course refusal .new []
  | waiting {c : C} {q : Q} : Course refusal (.waiting c q) [.invoked c q]
  | served {c : C} {q : Q} {r : R} : Course refusal (.served c q r) [.invoked c q, .performed q r]
  | answered {c : C} {q : Q} {r : R} : Course refusal .over
      [.invoked c q, .performed q r, .returned c r]
  | refused {c : C} {q : Q} {r : R} (hr : refusal r) : Course refusal .over
      [.invoked c q, .returned c r]

variable {t t' events : Trace Id C Q R} {φ φ' : Id → Phase C Q R} {refusal : R → Prop}

theorem course_append (t t' : Trace Id C Q R) (id : Id) :
    course (t ++ t') id = course t id ++ course t' id :=
  filterMap_append

theorem course_self (id : Id) (m : Moment C Q R) : course [(id, m)] id = [m] := by
  rw [course, filterMap_cons, if_pos rfl, filterMap_nil]

variable {id : Id} {m m' : Moment C Q R} {q : Q} {c : C}

theorem course_other {id' : Id} (h : id' ≠ id) (m : Moment C Q R) : course [(id', m)] id = [] := by
  rw [course, filterMap_cons, if_neg h, filterMap_nil]

theorem mem_course : m ∈ course t id ↔ (id, m) ∈ t := by
  rw [course, mem_filterMap]
  constructor
  · rintro ⟨⟨id', m'⟩, hmem, heq⟩
    split at heq
    · next hid =>
      cases heq
      exact hid ▸ hmem
    · cases heq
  · exact fun hmem => ⟨(id, m), hmem, if_pos rfl⟩

/-- One call moves on, and the others stay. -/
theorem course_step {p : Phase C Q R} (h : ∀ id, Course refusal (φ id) (course t id))
    (hnext : ∀ l, Course refusal (φ id) l → Course refusal p (l ++ [m])) (id' : Id) :
    Course refusal (update φ id p id') (course (t ++ [(id, m)]) id') := by
  rw [course_append]
  by_cases hid : id' = id
  · rw [hid, update_self, course_self]
    exact hnext _ (h id)
  · rw [update_of_ne hid, course_other (Ne.symm hid), append_nil]
    exact h id'

theorem Step.course (hstep : Step refusal φ events φ')
    (h : ∀ id, Course refusal (φ id) (course t id)) (id : Id) :
    Course refusal (φ' id) (course (t ++ events) id) := by
  cases hstep with
  | quiet =>
    rw [append_nil]
    exact h id
  | invoke hphase hidle =>
    refine course_step h (fun l hl => ?_) id
    rw [hphase] at hl
    cases hl
    exact .waiting
  | perform hphase =>
    refine course_step h (fun l hl => ?_) id
    rw [hphase] at hl
    cases hl
    exact .served
  | answer hphase =>
    refine course_step h (fun l hl => ?_) id
    rw [hphase] at hl
    cases hl
    exact .answered
  | refuse hphase hr =>
    refine course_step h (fun l hl => ?_) id
    rw [hphase] at hl
    cases hl
    exact .refused hr

theorem Runs.course (h : Runs refusal t φ) (id : Id) : Course refusal (φ id) (course t id) := by
  induction h generalizing id with
  | start => exact .new
  | step _ hstep ih => exact hstep.course ih id

/-! ## Performances -/

/-- The calls that were performed, in the order of the performances. -/
def performances (t : Trace Id C Q R) : List Id :=
  t.filterMap fun e =>
    match e.2 with
    | .performed _ _ => some e.1
    | _ => none

omit [DecidableEq Id] in
theorem performances_append (t t' : Trace Id C Q R) :
    performances (t ++ t') = performances t ++ performances t' :=
  filterMap_append

omit [DecidableEq Id] in
theorem mem_performances : id ∈ performances t ↔ ∃ q r, (id, .performed q r) ∈ t := by
  rw [performances, mem_filterMap]
  constructor
  · rintro ⟨⟨id', m⟩, hmem, heq⟩
    cases m with
    | performed q r =>
      cases heq
      exact ⟨q, r, hmem⟩
    | _ => cases heq
  · rintro ⟨q, r, hmem⟩
    exact ⟨_, hmem, rfl⟩

/-- Where a moment stands in its course. -/
def Moment.rank : Moment C Q R → Nat
  | .invoked _ _ => 0
  | .performed _ _ => 1
  | .returned _ _ => 2

theorem Course.sorted {p : Phase C Q R} {l : List (Moment C Q R)} (h : Course refusal p l) :
    l.Pairwise fun m m' => m.rank < m'.rank := by
  cases h <;> simp [Moment.rank]

/-- A call that waits or is new has not been performed. -/
theorem Runs.not_mem_performances (h : Runs refusal t φ)
    (hphase : φ id = .new ∨ ∃ c q, φ id = .waiting c q) : id ∉ performances t := by
  intro hmem
  obtain ⟨q, r, hmem⟩ := mem_performances.mp hmem
  have hcourse := h.course id
  have hin := mem_course.mpr hmem
  generalize Service.course t id = l at hcourse hin
  rcases hphase with hphase | ⟨c, q', hphase⟩
  · rw [hphase] at hcourse
    cases hcourse
    cases hin
  · rw [hphase] at hcourse
    cases hcourse
    rcases hin with _ | ⟨_, ⟨⟩⟩

/-- Each call is performed at most once. -/
theorem Runs.nodup_performances (h : Runs refusal t φ) : (performances t).Nodup := by
  induction h with
  | start => exact nodup_nil
  | @step t events φ φ' h hstep ih =>
    rw [performances_append]
    cases hstep with
    | quiet | invoke | answer | refuse => exact (append_nil _).symm ▸ ih
    | @perform id c q r hphase =>
      refine nodup_append.mpr ⟨ih, nodup_singleton _, fun a ha b hb => ?_⟩
      obtain rfl := mem_singleton.mp hb
      rintro rfl
      exact h.not_mem_performances (.inr ⟨c, q, hphase⟩) ha

/-! ## Orders -/

theorem Runs.rank_lt (h : Runs refusal (t ++ t') φ) (hmem : (id, m) ∈ t) (hmem' : (id, m') ∈ t') :
    m.rank < m'.rank := by
  have hsorted := (h.course id).sorted
  rw [course_append, pairwise_append] at hsorted
  exact hsorted.2.2 _ (mem_course.mpr hmem) _ (mem_course.mpr hmem')

theorem Runs.mem_left (h : Runs refusal (t ++ t') φ) (hmem : (id, m) ∈ t)
    (hmem' : (id, m') ∈ t ++ t') (hrank : m'.rank ≤ m.rank) : (id, m') ∈ t :=
  (mem_append.mp hmem').resolve_right fun hright => Nat.not_lt.mpr hrank (h.rank_lt hmem hright)

theorem Runs.mem_right (h : Runs refusal (t ++ t') φ) (hmem : (id, m) ∈ t')
    (hmem' : (id, m') ∈ t ++ t') (hrank : m.rank ≤ m'.rank) : (id, m') ∈ t' :=
  (mem_append.mp hmem').resolve_left fun hleft => Nat.not_lt.mpr hrank (h.rank_lt hleft hmem)

/-- What comes earlier in the course of a call is seen earlier. -/
theorem Runs.mem_before (h : Runs refusal (t ++ (id, m) :: t') φ)
    (hmem : (id, m') ∈ t ++ (id, m) :: t') (hrank : m'.rank < m.rank) : (id, m') ∈ t := by
  rw [append_cons] at h hmem
  have hleft := h.mem_left (mem_append_right _ mem_cons_self) hmem (Nat.le_of_lt hrank)
  refine (mem_append.mp hleft).resolve_right fun hlast => ?_
  cases mem_singleton.mp hlast
  exact Nat.lt_irrefl _ hrank

/-- What is performed was invoked before. -/
theorem Runs.invoked_before {r : R} (h : Runs refusal (t ++ (id, .performed q r) :: t') φ) :
    ∃ c, (id, .invoked c q) ∈ t := by
  have hcourse := h.course id
  have hin : .performed q r ∈ Service.course (t ++ (id, .performed q r) :: t') id :=
    mem_course.mpr (mem_append_right _ mem_cons_self)
  have hback : ∀ c, .invoked c q ∈ Service.course (t ++ (id, .performed q r) :: t') id →
      (id, .invoked c q) ∈ t :=
    fun c hmem => h.mem_before (mem_course.mp hmem) Nat.zero_lt_one
  generalize Service.course (t ++ (id, .performed q r) :: t') id = l at hcourse hin hback
  generalize φ id = p at hcourse
  cases hcourse with
  | @served c q' r' | @answered c q' r' =>
    simp only [mem_cons, reduceCtorEq, Moment.performed.injEq, not_mem_nil, or_false,
      false_or] at hin
    obtain ⟨rfl, rfl⟩ := hin
    exact ⟨c, hback c mem_cons_self⟩
  | _ => simp at hin

/-- What is returned is the reply of the performance, or a refusal of a call that is never
performed. -/
theorem Runs.returned_after {r : R} (h : Runs refusal (t ++ (id, .returned c r) :: t') φ) :
    (∃ q, (id, .invoked c q) ∈ t ∧ (id, .performed q r) ∈ t) ∨
      (refusal r ∧ id ∉ performances (t ++ (id, .returned c r) :: t')) := by
  have hcourse := h.course id
  have hin : .returned c r ∈ Service.course (t ++ (id, .returned c r) :: t') id :=
    mem_course.mpr (mem_append_right _ mem_cons_self)
  have hback : ∀ m : Moment C Q R, m.rank < 2 →
      m ∈ Service.course (t ++ (id, .returned c r) :: t') id → (id, m) ∈ t :=
    fun m hrank hmem => h.mem_before (mem_course.mp hmem) hrank
  have hnone : (∀ q r', .performed q r' ∉ Service.course (t ++ (id, .returned c r) :: t') id) →
      id ∉ performances (t ++ (id, .returned c r) :: t') := by
    intro hno hmem
    obtain ⟨q, r', hmem⟩ := mem_performances.mp hmem
    exact hno q r' (mem_course.mpr hmem)
  generalize Service.course (t ++ (id, .returned c r) :: t') id = l at hcourse hin hback hnone
  generalize φ id = p at hcourse
  cases hcourse with
  | @answered c' q r' =>
    simp only [mem_cons, reduceCtorEq, Moment.returned.injEq, not_mem_nil, or_false,
      false_or] at hin
    obtain ⟨rfl, rfl⟩ := hin
    exact .inl ⟨q, hback _ Nat.zero_lt_two mem_cons_self,
      hback _ Nat.one_lt_two (mem_cons_of_mem _ mem_cons_self)⟩
  | @refused c' q r' hr =>
    simp only [mem_cons, reduceCtorEq, Moment.returned.injEq, not_mem_nil, or_false,
      false_or] at hin
    obtain ⟨rfl, rfl⟩ := hin
    refine .inr ⟨hr, hnone fun q' r' hmem => ?_⟩
    simp at hmem
  | _ => simp at hin

/-- A call that was returned before another was invoked is performed before it. -/
theorem Runs.real_time (h : Runs refusal t φ) {a b : Id} {c' : C} {r : R}
    (hbefore : [(a, .returned c r), (b, .invoked c' q)].Sublist t) (ha : a ∈ performances t)
    (hb : b ∈ performances t) : [a, b].Sublist (performances t) := by
  obtain ⟨t₁, t₂, rfl, hret, hinv⟩ := cons_sublist_iff.mp hbefore
  rw [singleton_sublist] at hinv
  obtain ⟨qa, ra, ha⟩ := mem_performances.mp ha
  obtain ⟨qb, rb, hb⟩ := mem_performances.mp hb
  have hleft := h.mem_left hret ha (Nat.le_succ 1)
  have hright := h.mem_right hinv hb (Nat.zero_le 1)
  rw [performances_append]
  exact (singleton_sublist.mpr (mem_performances.mpr ⟨qa, ra, hleft⟩)).append
    (singleton_sublist.mpr (mem_performances.mpr ⟨qb, rb, hright⟩))

omit [DecidableEq Id] in
theorem sublist_concat {α : Type} {x y z : α} {l : List α} (h : [x, y].Sublist (l ++ [z])) :
    [x, y].Sublist l ∨ (x ∈ l ∧ y = z) := by
  obtain ⟨l₁, l₂, hl, h₁, h₂⟩ := sublist_append_iff.mp h
  rcases l₂ with _ | ⟨z', l₂⟩
  · rw [append_nil] at hl
    exact .inl (hl ▸ h₁)
  · obtain ⟨rfl, rfl⟩ : z' = z ∧ l₂ = [] := by
      have hlen := h₂.length_le
      have hnil : l₂ = [] := eq_nil_of_length_eq_zero (by simpa using hlen)
      exact ⟨by simpa [hnil] using h₂, hnil⟩
    obtain ⟨rfl, rfl⟩ : l₁ = [x] ∧ z' = y := by
      have hsplit : [x] ++ [y] = l₁ ++ [z'] := hl
      obtain ⟨h1, h2⟩ := append_inj' hsplit rfl
      exact ⟨h1.symm, by simpa using h2.symm⟩
    exact .inr ⟨singleton_sublist.mp h₁, rfl⟩

theorem Runs.invoked_phase (h : Runs refusal t φ) (hmem : (id, .invoked c q) ∈ t) :
    φ id ≠ .new ∧ ∀ c' q', φ id = .waiting c' q' → c' = c := by
  have hcourse := h.course id
  have hin := mem_course.mpr hmem
  generalize Service.course t id = l at hcourse hin
  refine ⟨fun hphase => ?_, fun c' q' hphase => ?_⟩
  · rw [hphase] at hcourse
    cases hcourse
    cases hin
  · rw [hphase] at hcourse
    cases hcourse
    cases mem_singleton.mp hin
    rfl

/-- Of two calls of one client the first does not wait any more. -/
theorem Runs.not_waiting (h : Runs refusal t φ) {a b : Id} {q' : Q}
    (hbefore : [(a, .invoked c q), (b, .invoked c q')].Sublist t) (c' : C) (r : Q) :
    φ a ≠ .waiting c' r := by
  induction h with
  | start => exact absurd hbefore (by simp)
  | @step t events φ φ' h hstep ih =>
    have hstays : ∀ {id p}, p ≠ .waiting c' r → [(a, .invoked c q), (b, .invoked c q')].Sublist t →
        update φ id p a ≠ .waiting c' r := by
      intro id p hp hold
      by_cases hid : a = id
      · rw [hid, update_self]
        exact hp
      · rw [update_of_ne hid]
        exact ih hold
    cases hstep with
    | quiet =>
      rw [append_nil] at hbefore
      exact ih hbefore
    | @invoke id c₀ q₀ hphase hidle =>
      have hmem : (a, .invoked c q) ∈ t ∧
          (b = id ∧ c = c₀ ∨ [(a, .invoked c q), (b, .invoked c q')].Sublist t) := by
        rcases sublist_concat hbefore with hold | ⟨hmem, heq⟩
        · exact ⟨hold.subset mem_cons_self, .inr hold⟩
        · cases heq
          exact ⟨hmem, .inl ⟨rfl, rfl⟩⟩
      obtain ⟨hne, hclient⟩ := h.invoked_phase hmem.1
      have hid : a ≠ id := fun hid => hne (hid ▸ hphase)
      rw [update_of_ne hid]
      rcases hmem.2 with ⟨-, rfl⟩ | hold
      · intro hwaits
        exact hidle a r (hclient _ _ hwaits ▸ hwaits)
      · exact ih hold
    | perform | answer | refuse =>
      refine hstays (by rintro ⟨⟩) ((sublist_concat hbefore).resolve_right ?_)
      rintro ⟨-, ⟨⟩⟩

/-- Calls that one client invoked are performed in this order. -/
theorem Runs.client_order (h : Runs refusal t φ) {a b : Id} {q' : Q}
    (hbefore : [(a, .invoked c q), (b, .invoked c q')].Sublist t) (ha : a ∈ performances t)
    (hb : b ∈ performances t) : [a, b].Sublist (performances t) := by
  induction h with
  | start => cases ha
  | @step t events φ φ' h hstep ih =>
    have hkeep : performances events = [] → [(a, .invoked c q), (b, .invoked c q')].Sublist t →
        [a, b].Sublist (performances (t ++ events)) := by
      intro hnone hold
      rw [performances_append, hnone, append_nil] at ha hb ⊢
      exact ih hold ha hb
    cases hstep with
    | quiet =>
      rw [append_nil] at hbefore
      exact hkeep rfl hbefore
    | @invoke id c₀ q₀ hphase hidle =>
      rcases sublist_concat hbefore with hold | ⟨-, heq⟩
      · exact hkeep rfl hold
      · cases heq
        rw [performances_append] at hb
        rcases mem_append.mp hb with hb' | hb'
        · exact absurd hb' (h.not_mem_performances (.inl hphase))
        · cases hb'
    | @perform id c₀ q₀ r hphase =>
      have hold := (sublist_concat hbefore).resolve_right (by rintro ⟨-, ⟨⟩⟩)
      have hid : a ≠ id := fun hid => h.not_waiting hold c₀ q₀ (hid ▸ hphase)
      rw [performances_append] at ha hb ⊢
      have ha' : a ∈ performances t := (mem_append.mp ha).resolve_right fun hmem =>
        hid (mem_singleton.mp hmem)
      rcases mem_append.mp hb with hb' | hb'
      · exact (ih hold ha' hb').trans (sublist_append_left _ _)
      · obtain rfl := mem_singleton.mp hb'
        exact (singleton_sublist.mpr ha').append (List.Sublist.refl _)
    | answer | refuse =>
      refine hkeep rfl ((sublist_concat hbefore).resolve_right ?_)
      rintro ⟨-, ⟨⟩⟩

end Service
