import Workshop.FtpCrowd

/-!
# A crowd of clients comes to rest

A run of the crowd gives each client the sets its calls find, once and for
all. Against these sets the session of the client ends, and a crowd with
finitely many clients whose sessions have ended has no step left.
-/

set_option autoImplicit false

namespace Workshop.FtpRest
open Workshop.CMemory Workshop.InteractiveProgram Workshop.ByteChannel Workshop.HalfDuplex
open Workshop.RunAhead Workshop.FtpConfig Workshop.FtpCommand Workshop.FtpDirectories
open Workshop.FtpServer Workshop.FtpNetwork Workshop.FtpNames Workshop.FtpClient
open Workshop.FtpLockstep Workshop.FtpExchange Workshop.FtpSession Workshop.FtpCrowd

variable {ι : Type} [DecidableEq ι]

theorem sights_append (i : ι) (s : Directories) (order more : List (ι × ServerOp)) :
    sights i s (order++more) = sights i s order++sights i (made s order) more := by
  induction order generalizing s with
  | nil => rfl
  | cons e order ih =>
    rw [List.cons_append, sights, sights, ih]
    split <;> rfl

theorem sights_length (i : ι) (s : Directories) (order : List (ι × ServerOp)) :
    (sights i s order).length = (callsOf i order).length := by
  induction order generalizing s with
  | nil => rfl
  | cons e order ih =>
    rw [sights, callsOf, List.filter_cons]
    split
    · rename_i he
      rw [if_pos (by simpa using he), List.length_cons, List.map_cons, List.length_cons, ih, callsOf]
    · rename_i he
      rw [if_neg (by simpa using he), ih, callsOf]

section Runs
variable {run : ℕ → Crowd ι} (hrun : ∀ k, CrowdStep (run k) (run (k+1)))
include hrun

theorem order_initial {k m : ℕ} (h : k ≤ m) : (run k).register.order <+: (run m).register.order := by
  induction m, h using Nat.le_induction with
  | base => exact List.prefix_refl _
  | succ m _ ih =>
    apply ih.trans
    obtain ⟨j,-,⟨hsame,-⟩ | ⟨op,hafter,-⟩⟩ := crowd_cases (hrun m)
    · rw [hsame]
    · rw [hafter]
      exact List.prefix_append _ _

omit hrun in
noncomputable def encounters (run : ℕ → Crowd ι) (i : ι) (m : ℕ) : Directories :=
  open Classical in
  if h : ∃ k, m < (sights i ∅ (run k).register.order).length then
    (sights i ∅ (run h.choose).register.order).getD m ∅
  else ∅

theorem encounters_eq (i : ι) {k m : ℕ} (hm : m < (sights i ∅ (run k).register.order).length) :
    encounters run i m = (sights i ∅ (run k).register.order).getD m ∅ := by
  have hgetD {k k' : ℕ} (hk : k ≤ k') (hm : m < (sights i ∅ (run k).register.order).length) :
      (sights i ∅ (run k').register.order).getD m ∅ =
        (sights i ∅ (run k).register.order).getD m ∅ := by
    obtain ⟨more,hmore⟩ := order_initial hrun hk
    rw [← hmore, sights_append, List.getD_append _ _ _ _ hm]
  have hsome : ∃ k, m < (sights i ∅ (run k).register.order).length := ⟨k,hm⟩
  rw [encounters, dif_pos hsome]
  rcases Nat.le_total k hsome.choose with hle | hle
  · exact hgetD hle hm
  · exact (hgetD hle hsome.choose_spec).symm

omit hrun in
noncomputable def outlook (run : ℕ → Crowd ι) (i : ι) (k : ℕ) : Meeting :=
  ⟨fun m => encounters run i ((callsOf i (run k).register.order).length+m),
    callsOf i (run k).register.order⟩

/-- Each step of the crowd is one of a client in its outlook, and none of the others. -/
theorem outlook_step (hmade : ∀ k, (run k).register.directories = made ∅ (run k).register.order)
    (k : ℕ) :
    ∃ j, Step console (answering meeting.answers) (facing (outlook run j k) ((run k).pair j))
        (facing (outlook run j (k+1)) ((run (k+1)).pair j)) ∧
      ∀ i, i ≠ j → facing (outlook run i (k+1)) ((run (k+1)).pair i) =
        facing (outlook run i k) ((run k).pair i) := by
  obtain ⟨j,hothers,⟨hsame,hturn⟩ | ⟨op,hafter,hturn⟩⟩ := crowd_cases (hrun k)
  · have hkept (i : ι) : outlook run i (k+1) = outlook run i k := by
      rw [outlook, outlook, hsame]
    refine ⟨j,?_,fun i hi => ?_⟩
    · rw [hkept]
      exact hturn _
    · rw [hkept, hothers i hi]
  · have horder : (run (k+1)).register.order = (run k).register.order++[(j,op)] := by
      rw [hafter]
      rfl
    refine ⟨j,?_,fun i hi => ?_⟩
    · have hcalls : callsOf j (run (k+1)).register.order =
          callsOf j (run k).register.order++[op] := by
        rw [horder]
        simp [callsOf]
      have hafter : meeting.after op (outlook run j k) = outlook run j (k+1) := by
        rw [outlook, outlook, hcalls, meeting, List.length_append, List.length_singleton]
        simp only [Nat.add_assoc, Nat.add_comm 1]
      rw [← hafter]
      apply hturn
      have hsights : sights j ∅ (run (k+1)).register.order =
          sights j ∅ (run k).register.order++[made ∅ (run k).register.order] := by
        rw [horder, sights_append, sights, if_pos rfl, sights]
      have hlen := sights_length j ∅ (run k).register.order
      show encounters run j ((callsOf j (run k).register.order).length+0) = _
      rw [Nat.add_zero, ← hlen, encounters_eq hrun j (k := k+1) (by rw [hsights]; simp), hsights,
        hmade]
      simp
    · have hne : j ≠ i := fun h => hi h.symm
      have hcalls : callsOf i (run (k+1)).register.order = callsOf i (run k).register.order := by
        rw [horder]
        simp [callsOf, hne]
      rw [outlook, outlook, hcalls, hothers i hi]

end Runs

section Rest
variable [Fintype ι] {cfg : Config} {typed : ι → List Text} {n : ℕ}
  {stray : Text → ℕ → UInt8} (hall : cfg.DefinesAll)
  (hvalues : ∀ key ∈ messageKeys, IsLine (cfg.value key))
  (hlines : ∀ i, ∀ line ∈ typed i, newline ∉ line ∧ line ≠ text "MKD")
  (hfit : Within cfg typed (2^31)) (hroom : Within cfg typed n)
  (hturns : ∀ i, (typed i).length+1 < n)
include hall hvalues hlines hfit hroom hturns

variable (stray) in
theorem crowd_finite : ¬ ∃ run : ℕ → Crowd ι, run 0 = opened stray cfg n typed ∧
    ∀ k, CrowdStep (run k) (run (k+1)) := by
  rintro ⟨run,hstart,hrun⟩
  have hreached (k : ℕ) : Relation.ReflTransGen CrowdStep (opened stray cfg n typed) (run k) := by
    induction k with
    | zero => rw [hstart]
    | succ k ih => exact ih.tail (hrun k)
  have hmade (k : ℕ) := (register_legal hall hvalues hlines hfit hroom hturns (hreached k)).1
  have hsets (i : ι) (m : ℕ) : encounters run i m ⊆ everything typed := by
    by_cases hsome : ∃ k, m < (sights i ∅ (run k).register.order).length
    · obtain ⟨k,hk⟩ := hsome
      rw [encounters_eq hrun i hk, List.getD_eq_getElem _ _ hk]
      exact sights_everything hall hvalues hlines hfit hroom hturns (hreached k) i _
        (List.getElem_mem hk)
    · rw [encounters, dif_neg hsome]
      exact Finset.empty_subset _
  have hstops (i : ι) : ∃ bound, ∀ k ≥ bound, ¬ Step console (answering meeting.answers)
      (facing (outlook run i k) ((run k).pair i))
      (facing (outlook run i (k+1)) ((run (k+1)).pair i)) := by
    have hends := ends_meeting stray hall hvalues hlines hfit hroom hturns i
      (s := outlook run i 0) fun m => hsets i _
    have hfirst : facing (outlook run i 0) ((run 0).pair i) =
        connected stray cfg n (typed i) (outlook run i 0) := by
      rw [hstart]
      rfl
    rw [← hfirst] at hends
    refine ends_stutters (fun k => facing (outlook run i k) ((run k).pair i)) hends fun k => ?_
    obtain ⟨j,hturn,hothers⟩ := outlook_step hrun hmade k
    by_cases hi : i = j
    · exact .inr (hi ▸ hturn)
    · exact .inl (hothers i hi)
  choose bound hbound using hstops
  obtain ⟨j,hturn,-⟩ := outlook_step hrun hmade (Finset.univ.sup bound)
  exact hbound j _ (Finset.le_sup (Finset.mem_univ j)) hturn

variable (stray) in
/-- Every run of the crowd is finite, and from wherever it has got to it can be
continued until nobody has a step. Then all threads have returned, and so have
the clients whose users have not typed on after `QUIT`. -/
theorem crowd_comes_to_rest :
    (¬ ∃ run : ℕ → Crowd ι, run 0 = opened stray cfg n typed ∧
      ∀ k, CrowdStep (run k) (run (k+1))) ∧
    ∀ v, Relation.ReflTransGen CrowdStep (opened stray cfg n typed) v →
      ∃ w, Relation.ReflTransGen CrowdStep v w ∧ (∀ u, ¬ CrowdStep w u) ∧
        ∀ i, Settled meeting cfg (expecting (sights i ∅ w.register.order) []) (typed i)
          (facing (expecting [] (callsOf i w.register.order)) (w.pair i)) := by
  have hfinite := crowd_finite stray hall hvalues hlines hfit hroom hturns
  refine ⟨hfinite,fun v hv => ?_⟩
  have hacc : Acc (flip CrowdStep) (opened stray cfg n typed) := by
    rw [acc_iff_isEmpty_descending_chain]
    exact ⟨fun ⟨run,hstart,hrun⟩ => hfinite ⟨run,hstart,hrun⟩⟩
  have hhere : Acc (flip CrowdStep) v := by
    clear hfinite
    induction hv with
    | refl => exact hacc
    | tail _ hstep ih => exact ih.inv hstep
  induction hhere with
  | intro v _ ih =>
    by_cases hsome : ∃ u, CrowdStep v u
    · obtain ⟨u,hu⟩ := hsome
      obtain ⟨w,hw,hrest,hsettled⟩ := ih u hu (hv.tail hu)
      exact ⟨w,hw.head hu,hrest,hsettled⟩
    · refine ⟨v,.refl,fun u hu => hsome ⟨u,hu⟩,fun i => ?_⟩
      apply ends_rest (crowd_session hall hvalues hlines hfit hroom hturns hv i)
      intro u hu
      obtain ⟨w,hw⟩ := step_enabled meeting (caller i) hu v.register
      exact hsome ⟨_,.turn i hw⟩

omit hall hvalues hlines hfit hroom hturns [DecidableEq ι] [Fintype ι] in
theorem crowd_comes_to_rest_pairing : ∃ n w,
    Relation.ReflTransGen CrowdStep (opened (fun _ _ => 0) namesConfig n pairing) w ∧
    (∀ u, ¬ CrowdStep w u) ∧ (w.pair true).right.program = .ret () ∧
    (w.pair false).left.program = .ret () := by
  have hlines : ∀ b, ∀ line ∈ pairing b, newline ∉ line ∧ line ≠ text "MKD" := by decide
  obtain ⟨-,hall⟩ := crowd_comes_to_rest (fun _ _ => 0) namesConfig_defines
    namesConfig_lines hlines pairing_within pairing_within (by decide)
  obtain ⟨w,hw,hrest,hsettled⟩ := hall _ .refl
  exact ⟨_,w,hw,hrest,(hsettled true).server,((hsettled false).left (by decide)).1⟩

end Rest

end Workshop.FtpRest
