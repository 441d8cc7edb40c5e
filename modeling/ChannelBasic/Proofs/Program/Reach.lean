import ChannelBasic.Proofs.Program.Channels

/-!
# Proofs/Program/Reach — the search for what a module reaches

The search starts with the functions of a module and looks into one function after the other, in the
order in which they are found.  Nothing is found twice, so the search is over before its bound, and
what is called by a function that has been looked into is found.  **A module reaches its own
functions and those with a body that they lead to**, and nothing else (`mem_reachable`).
-/

namespace ChannelBasic.Program

variable {p : Program} {m : Module} {n k : Nat} {done queue found : List Nat}

/-! ## What is found in one function -/

/-- Functions without a body mention nothing. -/
theorem isUser_of_mentions {mention : Mention} (h : mention ∈ p.mentionsOf n) : p.IsUser n := by
  unfold mentionsOf at h
  cases hf : p.functions[n]? with
  | none => simp [hf] at h
  | some f =>
    cases hb : f.body with
    | native => simp [hf, Function.mentions, hb] at h
    | user body => exact ⟨f, body, hf, by rw [Function.user?, hb]⟩

/-- A function calls another. -/
def Calls (p : Program) (n k : Nat) : Prop := .call (some k) ∈ p.mentionsOf n

theorem Calls.isUser (h : p.Calls n k) : p.IsUser n := isUser_of_mentions h

theorem calls_iff {f : Function} (hf : p.functions[n]? = some f) :
    p.Calls n k ↔ .call (some k) ∈ f.mentions := by
  rw [Calls, mentionsOf, hf]
  rfl

theorem Reaches.calls (h : p.Reaches m n) (hk : p.Calls n k) : p.Reaches m k := by
  obtain ⟨f, body, hf, -⟩ := hk.isUser
  exact h.call hf ((calls_iff hf).1 hk)

theorem mem_newCallees {mentions : List Mention} : k ∈ p.newCallees found mentions ↔
    k ∉ found ∧ p.IsUser k ∧ .call (some k) ∈ mentions := by
  fun_induction newCallees p found mentions with
  | case1 found => simp
  | case2 found callee rest hnew ih =>
    obtain ⟨hfree, huser⟩ : callee ∉ found ∧ p.IsUser callee := by
      rwa [Bool.and_eq_true, isUser_iff, Bool.not_eq_true', ← Bool.not_eq_true,
        List.contains_iff_mem] at hnew
    rw [List.mem_cons, ih]
    by_cases hk : k = callee
    · subst hk
      simp [hfree, huser]
    · simp [hk]
  | case3 found callee rest hold ih =>
    rw [Bool.and_eq_true, isUser_iff, Bool.not_eq_true', ← Bool.not_eq_true,
      List.contains_iff_mem] at hold
    rw [ih]
    refine and_congr_right fun hfree => and_congr_right fun huser => ?_
    have hne : k ≠ callee := fun hk => hold ⟨hk ▸ hfree, hk ▸ huser⟩
    simp [hne]
  | case4 found mention rest hcall ih =>
    rw [ih]
    refine and_congr_right fun _ => and_congr_right fun _ => ?_
    have hne : Mention.call (some k) ≠ mention := fun h => hcall k h.symm
    simp [hne]

theorem nodup_newCallees (found : List Nat) (mentions : List Mention) :
    (p.newCallees found mentions).Nodup := by
  fun_induction newCallees p found mentions with
  | case1 => exact .nil
  | case2 found callee rest hnew ih =>
    exact List.nodup_cons.2 ⟨fun h => (mem_newCallees.1 h).1 List.mem_cons_self, ih⟩
  | case3 found callee rest hold ih => exact ih
  | case4 found mention rest hcall ih => exact ih

/-! ## The search -/

/-- A search that has looked into the functions `done` and is to look into those in `queue`. -/
structure Searched (p : Program) (m : Module) (done queue : List Nat) : Prop where
  distinct : (done ++ queue).Nodup
  own : ∀ n ∈ m.functions, n ∈ done ++ queue
  reached : ∀ n ∈ done ++ queue, p.Reaches m n ∧ (n ∈ m.functions ∨ p.IsUser n)
  closed : ∀ n ∈ done, ∀ k, p.Calls n k → p.IsUser k → k ∈ done ++ queue

theorem searched_start (hdistinct : m.functions.Nodup) : p.Searched m [] m.functions where
  distinct := hdistinct
  own _ hn := hn
  reached _ hn := ⟨.own hn, .inl hn⟩
  closed _ hn := by cases hn

/-- **Looking into a function finds what it calls.** -/
theorem Searched.next (h : p.Searched m done (n :: queue)) :
    p.Searched m (done ++ [n])
      (queue ++ p.newCallees (done ++ n :: queue) (p.mentionsOf n)) := by
  have hfound : done ++ [n] ++ (queue ++ p.newCallees (done ++ n :: queue) (p.mentionsOf n)) =
      (done ++ n :: queue) ++ p.newCallees (done ++ n :: queue) (p.mentionsOf n) := by simp
  have hn := h.reached n (by simp)
  refine ⟨?_, fun k hk => ?_, fun k hk => ?_, fun k hk c hc huser => ?_⟩ <;> rw [hfound] at *
  · exact List.nodup_append.2 ⟨h.distinct, nodup_newCallees _ _, fun a ha b hb hab =>
      (mem_newCallees.1 hb).1 (hab ▸ ha)⟩
  · exact List.mem_append_left _ (h.own k hk)
  · obtain hk | hk := List.mem_append.1 hk
    · exact h.reached k hk
    · obtain ⟨-, huser, hcall⟩ := mem_newCallees.1 hk
      exact ⟨hn.1.calls hcall, .inr huser⟩
  · by_cases hc' : c ∈ done ++ n :: queue
    · exact List.mem_append_left _ hc'
    · obtain hk | hk := List.mem_append.1 hk
      · exact absurd (h.closed k hk c hc huser) hc'
      · obtain rfl := List.mem_singleton.1 hk
        exact List.mem_append_right _ (mem_newCallees.2 ⟨hc', huser, hc⟩)

/-- The numbers of what is found are in the table. -/
theorem Searched.length_le (h : p.Searched m done queue)
    (hown : ∀ n ∈ m.functions, n < p.functions.size) :
    (done ++ queue).length ≤ p.functions.size := by
  have hsub : ∀ n ∈ done ++ queue, n ∈ List.range p.functions.size := fun n hn =>
    List.mem_range.2 ((h.reached n hn).2.elim (hown n) IsUser.lt)
  simpa using (h.distinct.subperm hsub).length_le

/-- **A search that may go on for as many rounds as there are functions comes to its end.** -/
theorem Searched.reachFrom {bound : Nat} (h : p.Searched m done queue)
    (hown : ∀ n ∈ m.functions, n < p.functions.size)
    (hbound : p.functions.size < done.length + bound) :
    p.Searched m (p.reachFrom bound (done ++ queue) queue) [] := by
  induction bound generalizing done queue with
  | zero =>
    have hle := h.length_le hown
    rw [List.length_append] at hle
    omega
  | succ bound ih =>
    cases queue with
    | nil =>
      rw [List.append_nil, Program.reachFrom]
      · exact h
      · simp
    | cons n queue =>
      have hnext := ih h.next (by rw [List.length_append, List.length_singleton]; omega)
      rw [Program.reachFrom]
      simpa using hnext

/-- **A module reaches its own functions and those with a body that they lead to.** -/
theorem Searched.mem_iff (h : p.Searched m found []) :
    n ∈ found ↔ p.Reaches m n ∧ (n ∈ m.functions ∨ p.IsUser n) := by
  have hreached := h.reached
  have hown := h.own
  have hclosed := h.closed
  rw [List.append_nil] at hreached hown hclosed
  refine ⟨hreached n, fun hn => ?_⟩
  obtain ⟨hn, huser⟩ := hn
  induction hn with
  | own hn => exact hown _ hn
  | @call n k f hn hf hk ih =>
    obtain huser | huser := huser
    · exact hown _ huser
    · have hcalls := (calls_iff hf).2 hk
      exact hclosed n (ih (.inr hcalls.isUser)) k hcalls huser

theorem Written.searched {visible : Owner → Nat → Bool} (hp : p.Written visible)
    (hm : m ∈ p.modules) : p.Searched m (p.reachable m) [] := by
  obtain ⟨k, hk⟩ := List.mem_iff_getElem?.1 hm
  refine (searched_start (hp.distinct m hm)).reachFrom (fun n hn => ?_) (by simp)
  obtain ⟨f, hf, -⟩ := hp.modules k m hk n hn
  exact (Array.getElem?_eq_some_iff.1 hf).1

/-- **What a module reaches is found, and found once.** -/
theorem Written.mem_reachable {visible : Owner → Nat → Bool} (hp : p.Written visible)
    (hm : m ∈ p.modules) :
    n ∈ p.reachable m ↔ p.Reaches m n ∧ (n ∈ m.functions ∨ p.IsUser n) :=
  (hp.searched hm).mem_iff

/-! ## What the later passes leave of it -/

/-- A module that knows what it reaches in a program, and the texts of that. -/
structure Surveyed (p : Program) (m m' : Module) : Prop where
  functions : m'.functions = m.functions
  executor : m'.executor = m.executor
  reachable : m'.reachable = p.reachable m
  static : m'.static = p.staticTexts (p.reachable m)

/-- **What modules reach is found before types are checked, and kept.** -/
theorem surveyed_of_layout {p₂ q : Program} (h₂ : p.withReach.checkTypes = .ok p₂)
    (h : p₂.layout = .ok q) :
    q.libraries = p.libraries ∧ List.Forall₂ (Surveyed p) p.modules q.modules := by
  obtain ⟨⟨fs, s⟩, -, h₂⟩ := Checked.bind_eq_ok.1 h₂
  obtain rfl := Checked.pure_eq_ok.1 h₂
  have hlays := laysOut_of_layout h
  refine ⟨hlays.libraries, (List.forall₂_map_left_iff.1 hlays.modules).imp fun m m' hm => ?_⟩
  obtain ⟨⟨ds, size⟩, -, hm⟩ := Checked.bind_eq_ok.1 hm
  obtain rfl := Checked.pure_eq_ok.1 hm
  exact ⟨rfl, rfl, rfl, rfl⟩

end ChannelBasic.Program
