import Workshop.SudokuProcess

/-!
# What the sudoku processes leave behind

The exit code, and the descriptors and addresses that were handed out. The
calls after a failed one are made all the same, so a server reports success
without a socket, and the set-up of either program can go wrong in ways that
the program does not notice.
-/

set_option autoImplicit false

namespace Workshop.SudokuExit
open Workshop.CMemory Workshop.InteractiveProgram Workshop.ByteChannel Workshop.OwnedResources
open Workshop.SystemCalls Workshop.SudokuBoard Workshop.SudokuServer Workshop.SudokuProtocol
open Workshop.SudokuStrings Workshop.SudokuClient Workshop.SudokuProcess
open Workshop.SudokuPlay (SudokuStatus Playing)

variable {n : ℕ} {g : Garbage} {file : Option Text} {argv : List Text}
  {es : List (Event (system stdio))}

def Supplied (es : List (Event (system stdio))) : Prop :=
  ∀ e ∈ es, (sockets Answered).promises e.op e.res

theorem serverSession_over {skt : ℤ} {r : Serving × SudokuStatus}
    (h : Performs (serverSession n g file skt) es (.ret r)) (hes : Supplied es) :
    r.2 = .endgame := by
  have hkeeps : Keeps (trusting Answered) (fun r _ => ∃ closed, r.2 = .endgame ∧ closed = true)
      (fun _ _ => True) (serverSession n g file skt) () :=
    keeps_session (P := fun _ _ => True) ⟨trivial,fun _ _ => trivial⟩ (fun _ => trivial)
      (keeps_serverSession g.messageLen n g.server (blankBoard g.board) file .argsOk)
  obtain ⟨closed,hr,-⟩ := keeps_performs h hkeeps (relied_trusting hes)
  exact hr

theorem clientSession_over {self : Client} {skt : ℤ} {s : Playing}
    (h : Performs (clientSession n self skt) es (.ret s)) (hes : Supplied es) :
    s.game = .endgame := by
  have hkeeps : Keeps (trusting Answered) (fun s _ => ∃ closed, s.game = .endgame ∧ closed = true)
      (fun _ _ => True) (clientSession n self skt) () :=
    keeps_session ⟨trivial,fun _ _ => ⟨trivial,fun _ _ => trivial⟩⟩
      (fun _ => ⟨trivial,fun _ hr => hr⟩) (keeps_clientSession n self .argsOk)
  obtain ⟨closed,hs,-⟩ := keeps_performs h hkeeps (relied_trusting hes)
  exact hs

theorem supplied_right {es es' : List (Event (system stdio))} (h : Supplied (es++es')) :
    Supplied es' := fun e he => h e (List.mem_append_right _ he)

def Connects (argv : List Text) (es : List (Event (system stdio))) : Prop :=
  ∃ res skt, skt ≠ -1 ∧
    [⟨.getaddrinfo (some (argv.getD 2 [])) (argv.getD 3 []) false,some res⟩,⟨.socket res,skt⟩,
      ⟨.connect skt res,true⟩] <+: es

theorem connects_iff {stray : ℕ} {answer : Option ℕ} {skt : ℤ} {ok : Bool} :
    Connects argv (connecting stray (argv.getD 2 []) (argv.getD 3 []) answer skt ok++es) ↔
      Connected answer skt ok := by
  constructor
  · rintro ⟨res,skt',hskt,he⟩
    simp only [connecting, List.cons_append, List.cons_prefix_cons, Event.mk.injEq, heq_eq_eq,
      true_and, SystemOp.socket.injEq, SystemOp.connect.injEq] at he
    obtain ⟨rfl,⟨-,rfl⟩,⟨-,rfl⟩,-⟩ := he
    exact ⟨Option.some_ne_none res,hskt,rfl⟩
  · rintro ⟨ha,hskt,rfl⟩
    obtain ⟨res,rfl⟩ := Option.ne_none_iff_exists'.mp ha
    exact ⟨res,skt,hskt,_,rfl⟩

def Heard (c : Creation) : Prop :=
  c.answer ≠ none ∧ c.skt ≠ -1 ∧ c.bound = true ∧ c.heard = true

theorem creating_allowed (stray : ℕ) (port : Text) (c : Creation) (new : ℤ) :
    Allowed (sockets Answered).contract ∅ (creating stray port c++accepting c.skt port new) ↔
      Heard c := by
  obtain ⟨answer,skt,reused,bound,heard⟩ := c
  -- a call that has failed leaves nothing for the one behind it
  cases answer with
  | none =>
    apply iff_of_false
    · rintro ⟨-,hres,-⟩
      exact absurd (hres.1 (Finset.mem_singleton_self _)) (Finset.notMem_empty _)
    · exact fun h => h.1 rfl
  | some res =>
    by_cases hskt : skt = -1
    · subst hskt
      have hheld : held (-1) = ∅ := if_pos rfl
      apply iff_of_false _ fun h => h.2.1 rfl
      simp only [creating, Creation.addresses, List.cons_append, List.nil_append, if_true,
        Option.getD_some, binding, allowed_cons]
      simp only [sockets, hheld, Finset.empty_union, Finset.singleton_subset_iff, Finset.mem_union,
        Finset.mem_sdiff, Finset.mem_singleton, Finset.notMem_empty, not_true_eq_false, and_false,
        or_false, false_and, not_false_eq_true]
    · have hheld : held skt = {.descriptor skt} := if_neg hskt
      cases bound <;> cases heard <;>
        simp only [creating, binding, listening, accepting, Creation.addresses, Heard, hskt,
          List.cons_append, List.nil_append, List.append_assoc, Option.getD_some, if_true,
          if_false, Bool.true_eq_false, Bool.false_eq_true, allowed_cons, allowed_nil] <;>
        simp only [sockets, hheld, hskt, Finset.union_subset_iff, Finset.singleton_subset_iff,
          Finset.empty_subset, Finset.mem_union, Finset.mem_sdiff, Finset.mem_singleton,
          Finset.notMem_empty, reduceCtorEq, not_true_eq_false, not_false_eq_true, and_true,
          and_false, or_true, or_false, and_self, ne_eq]

theorem creating_after (stray : ℕ) (port : Text) {c : Creation} (h : Heard c) :
    (sockets Answered).contract.after ∅ (creating stray port c) = {.descriptor c.skt} := by
  obtain ⟨answer,skt,reused,bound,heard⟩ := c
  obtain ⟨ha,hskt,hb,hl⟩ := h
  obtain ⟨res,rfl⟩ := Option.ne_none_iff_exists'.mp ha
  obtain rfl : bound = true := hb
  obtain rfl : heard = true := hl
  have hskt' : skt ≠ -1 := hskt
  have hheld : held skt = {.descriptor skt} := if_neg hskt'
  simp only [creating, binding, listening, Creation.addresses, hskt', List.cons_append,
    List.nil_append, Option.getD_some, if_false, Bool.true_eq_false, after_cons, after_nil]
  simp only [sockets, Finset.empty_union, Finset.union_empty, Finset.sdiff_empty]
  rw [addresses_freed, hheld]

theorem connecting_allowed (stray : ℕ) (hostname port : Text) (answer : Option ℕ) (skt : ℤ)
    (ok : Bool) :
    Allowed (sockets Answered).contract ∅ (connecting stray hostname port answer skt ok) ↔
      answer ≠ none := by
  cases answer with
  | none =>
    apply iff_of_false
    · rintro ⟨-,hres,-⟩
      exact absurd (hres.1 (Finset.mem_singleton_self _)) (Finset.notMem_empty _)
    · exact fun h => h rfl
  | some res =>
    refine iff_of_true ?_ (Option.some_ne_none res)
    cases ok <;>
      simp only [connecting, List.cons_append, List.nil_append, Option.getD_some, if_true, if_false,
        Bool.true_eq_false, allowed_cons, allowed_nil] <;>
      simp only [sockets, Finset.empty_union, Finset.union_empty, Finset.sdiff_empty,
        descriptor_closed, Finset.empty_subset, Finset.Subset.refl, Finset.union_subset_iff,
        Finset.subset_union_left, Finset.subset_union_right, and_self]

theorem connecting_after (stray : ℕ) (hostname port : Text) {answer : Option ℕ} (skt : ℤ)
    (ok : Bool) (h : answer ≠ none) :
    (sockets Answered).contract.after ∅ (connecting stray hostname port answer skt ok) =
      if ok = true then held skt else ∅ := by
  obtain ⟨res,rfl⟩ := Option.ne_none_iff_exists'.mp h
  cases ok <;>
    simp only [connecting, List.cons_append, List.nil_append, Option.getD_some, if_true, if_false,
      Bool.true_eq_false, after_cons, after_nil] <;>
    simp only [sockets, Finset.empty_union, Finset.union_empty, Finset.sdiff_empty,
      descriptor_closed, addresses_freed, Finset.sdiff_self, Bool.false_eq_true, if_false]

def Listens (argv : List Text) (skt : ℤ) (es : List (Event (system stdio))) : Prop :=
  ∃ res reused, skt ≠ -1 ∧
    [⟨.getaddrinfo none (argv.getD 2 []) true,some res⟩,⟨.socket res,skt⟩,
      ⟨.setsockopt skt,reused⟩,⟨.bind skt res,true⟩,⟨.listen skt waitingClients,true⟩] <+: es

theorem listens_iff {stray : ℕ} {c : Creation} {skt : ℤ} :
    Listens argv skt (creating stray (argv.getD 2 []) c++es) ↔ Heard c ∧ c.skt = skt := by
  obtain ⟨answer,fd,reused,bound,heard⟩ := c
  constructor
  · rintro ⟨res,reused',hskt,he⟩
    simp only [creating, List.cons_append, List.cons_prefix_cons, Event.mk.injEq, heq_eq_eq,
      true_and, SystemOp.socket.injEq] at he
    obtain ⟨rfl,⟨-,rfl⟩,he⟩ := he
    simp only [if_neg hskt, binding, listening, List.nil_append, List.cons_append,
      List.cons_prefix_cons, Event.mk.injEq, heq_eq_eq, true_and] at he
    obtain ⟨-,⟨-,rfl⟩,he⟩ := he
    simp only [Bool.true_eq_false, if_false, List.nil_append, List.cons_append,
      List.cons_prefix_cons, Event.mk.injEq, heq_eq_eq, true_and] at he
    exact ⟨⟨Option.some_ne_none res,hskt,rfl,he.1.symm⟩,rfl⟩
  · rintro ⟨⟨ha,hskt,hb,hl⟩,rfl⟩
    obtain ⟨res,rfl⟩ := Option.ne_none_iff_exists'.mp ha
    obtain rfl : bound = true := hb
    obtain rfl : heard = true := hl
    refine ⟨res,reused,hskt,?_⟩
    rw [creating, if_neg hskt]
    exact ⟨_,rfl⟩

def Resolves (argv : List Text) (es : List (Event (system stdio))) : Prop :=
  ∃ res, [⟨.getaddrinfo (some (argv.getD 2 [])) (argv.getD 3 []) false,some res⟩] <+: es

theorem resolves_iff {stray : ℕ} {answer : Option ℕ} {skt : ℤ} {ok : Bool} :
    Resolves argv (connecting stray (argv.getD 2 []) (argv.getD 3 []) answer skt ok++es) ↔
      answer ≠ none := by
  constructor
  · rintro ⟨res,he⟩
    simp only [connecting, List.cons_append, List.cons_prefix_cons, Event.mk.injEq, heq_eq_eq,
      true_and] at he
    exact he.1 ▸ Option.some_ne_none res
  · intro ha
    obtain ⟨res,rfl⟩ := Option.ne_none_iff_exists'.mp ha
    exact ⟨res,_,rfl⟩

/-- The exit code of a run whose calls are in order. A server that listens
reports success whatever `accept` answers, and a client if it was connected or
its status says so. -/
theorem main_exit (n : ℕ) (g : Garbage) (file : Option Text) (argv : List Text)
    (es : List (Event (system stdio))) (code : ℕ)
    (h : Performs (main n g file argv) es (.ret code)) (hes : Supplied es)
    (hallowed : Allowed (sockets Answered).contract ∅ es) :
    code = exitSuccess ↔ (Asks argv 3 sudokuMsgServer ∧ ∃ skt, Listens argv skt es) ∨
      Asks argv 4 sudokuMsgClient ∧
        (Connects argv es ∨ Resolves argv es ∧ g.client.status = .connected) := by
  cases main_finishes h with
  | server hargs c new hsession =>
    have hend := serverSession_over hsession (supplied_right (supplied_right hes))
    rw [← List.append_assoc, allowed_append] at hallowed
    have hheard : Heard c := (creating_allowed _ _ c new).mp hallowed.1
    exact iff_of_true (by rw [exitCode, hend, if_neg (not_not.mpr rfl)])
      (.inl ⟨hargs,c.skt,listens_iff.mpr ⟨hheard,rfl⟩⟩)
  | client hargs answer skt ok hopen self hsession =>
    have hend := clientSession_over hsession (supplied_right hes)
    rw [allowed_append] at hallowed
    have hanswer : answer ≠ none := (connecting_allowed _ _ _ answer skt ok).mp hallowed.1
    refine iff_of_true (by rw [exitCode, hend, if_neg (not_not.mpr rfl)]) (.inr ⟨hargs,?_⟩)
    exact hopen.imp connects_iff.mpr fun hstatus => ⟨resolves_iff.mpr hanswer,hstatus⟩
  | stranger hargs answer skt ok hopen =>
    apply iff_of_false (by decide)
    rintro (⟨hserver,-⟩ | ⟨-,hconnected⟩)
    · exact not_both hserver hargs
    · have hnone := @connects_iff argv [] g.res answer skt ok
      rw [List.append_nil] at hnone
      exact hopen (hconnected.imp hnone.mp And.right)
  | usage hserver hclient t =>
    apply iff_of_false (by decide)
    rintro (⟨hs,-⟩ | ⟨hc,-⟩)
    · exact hserver hs
    · exact hclient hc

def garbage : Garbage where
  game := ⟨0,[],[],.ok⟩
  socket := ⟨0,.connected⟩
  client := ⟨0,0,0,0,.ok⟩
  server := ⟨0,0,0,0,.ok⟩
  board := .ok
  res := 9
  messageLen := Vector.replicate headerLen 0

def refusedArgs : List Text := [text "tp",text "client",text "localhost",text "8080"]

def refused : List (Event (system stdio)) :=
  connecting garbage.res (text "localhost") (text "8080") (some 7) 3 false

theorem refused_performs :
    Performs (main 1 garbage none refusedArgs) refused (.ret exitFailure) := by
  rw [main, sudokuSetMode, if_neg (by decide), if_pos (by decide)]
  iterate 5 apply Performs.step
  exact .none _

theorem main_exit_refused : ¬ Connects refusedArgs refused := by
  intro h
  have hallowed : Allowed (sockets Answered).contract ∅ refused :=
    (connecting_allowed _ _ _ (some 7) 3 false).mpr (Option.some_ne_none 7)
  have hexit := main_exit 1 garbage none refusedArgs refused exitFailure refused_performs
    (by simp [Supplied, refused, connecting, sockets]) hallowed
  exact absurd (hexit.mpr (.inr ⟨by decide,.inl h⟩)) (by decide)

theorem serverSession_leaves {skt : ℤ} {f : Finset Resource} {r : Serving × SudokuStatus}
    (h : Performs (serverSession n g file skt) es (.ret r)) (hf : Disjoint (held skt) f)
    (hr : (sockets Answered).contract.Relied (held skt ∪ f) es) :
    Allowed (sockets Answered).contract (held skt ∪ f) es ∧
      (sockets Answered).contract.after (held skt ∪ f) es = f := by
  apply session_leaves (P := fun _ _ => True) _ _ _ h hf hr
  · apply keeps_release (Finset.empty_subset _) subset_rfl fun _ => rfl
    intro _ _
    exact Finset.sdiff_self _
  · intro _ _
    exact ⟨rfl,trivial⟩
  · exact keeps_mono (fun _ _ h => h.2) (fun _ _ h => h) (keeps_serverSession ..)

theorem clientSession_leaves {self : Client} {skt : ℤ} {s : Playing}
    (h : Performs (clientSession n self skt) es (.ret s))
    (hr : (sockets Answered).contract.Relied (held skt) es) :
    Allowed (sockets Answered).contract (held skt) es ∧
      (sockets Answered).contract.after (held skt) es = ∅ := by
  rw [← Finset.union_empty (held skt)] at hr ⊢
  apply session_leaves (P := Answered) _ _ _ h (Finset.disjoint_empty_right _) hr
  · apply keeps_use subset_rfl rfl fun _ => rfl
    intro _ _
    apply keeps_release (Finset.empty_subset _) subset_rfl fun _ => rfl
    intro _ _
    exact Finset.sdiff_self _
  · intro op l
    apply keeps_use (Finset.empty_subset _) rfl fun _ => rfl
    intro r hr
    exact ⟨rfl,hr⟩
  · exact keeps_mono (fun _ _ h => h.2) (fun _ _ h => h) (keeps_clientSession ..)

theorem server_leaves {stray : ℕ} {port : Text} {c : Creation} {new : ℤ}
    {r : Serving × SudokuStatus} (hc : Heard c)
    (h : Performs (serverSession n g file new) es (.ret r))
    (hr : (sockets Answered).contract.Relied ∅
      (creating stray port c++(accepting c.skt port new++es))) :
    Allowed (sockets Answered).contract ∅ (creating stray port c++(accepting c.skt port new++es)) ∧
      (sockets Answered).contract.after ∅ (creating stray port c++(accepting c.skt port new++es)) =
        {.descriptor c.skt} := by
  have hcreated := creating_after stray port hc
  have hopened : (sockets Answered).contract.after {.descriptor c.skt} (accepting c.skt port new) =
      held new ∪ {.descriptor c.skt} := by
    simp [accepting, Contract.after, Discipline.contract, sockets, Finset.union_comm]
  have hset := ((allowed_append _ ∅ _ _).mp ((creating_allowed stray port c new).mpr hc))
  rw [hcreated] at hset
  rw [relied_append, hcreated, relied_append, hopened] at hr
  obtain ⟨-,⟨⟨hnew,-⟩,-⟩,hr⟩ := hr
  obtain ⟨hallowed,hafter⟩ := serverSession_leaves h hnew hr
  rw [allowed_append, after_append, hcreated, allowed_append, after_append, hopened]
  exact ⟨⟨hset.1,hset.2,hallowed⟩,hafter⟩

theorem client_leaves {stray : ℕ} {hostname port : Text} {answer : Option ℕ} {skt : ℤ} {ok : Bool}
    {self : Client} {s : Playing} (hc : Connected answer skt ok)
    (h : Performs (clientSession n self skt) es (.ret s))
    (hr : (sockets Answered).contract.Relied ∅
      (connecting stray hostname port answer skt ok++es)) :
    Allowed (sockets Answered).contract ∅ (connecting stray hostname port answer skt ok++es) ∧
      (sockets Answered).contract.after ∅ (connecting stray hostname port answer skt ok++es) =
        ∅ := by
  have hconnected := connecting_after stray hostname port skt ok hc.1
  rw [if_pos hc.2.2] at hconnected
  rw [relied_append, hconnected] at hr
  obtain ⟨hallowed,hafter⟩ := clientSession_leaves h hr.2
  rw [allowed_append, after_append, hconnected]
  exact ⟨⟨(connecting_allowed stray hostname port answer skt ok).mpr hc.1,hallowed⟩,hafter⟩

/-- The calls of a run are in order just when the set-up succeeds, of which the
client needs the first call only. Then nothing is left behind but the
descriptor of a server that listens. -/
theorem main_resources (n : ℕ) (g : Garbage) (file : Option Text) (argv : List Text)
    (es : List (Event (system stdio))) (code : ℕ)
    (h : Performs (main n g file argv) es (.ret code))
    (hr : (sockets Answered).contract.Relied ∅ es) :
    (Asks argv 3 sudokuMsgServer →
      (Allowed (sockets Answered).contract ∅ es ↔ ∃ skt, Listens argv skt es) ∧
      ∀ skt, Listens argv skt es → Leaves (sockets Answered) {.descriptor skt} es) ∧
    (Asks argv 4 sudokuMsgClient → g.client.status ≠ .connected →
      (Allowed (sockets Answered).contract ∅ es ↔ Resolves argv es) ∧
      (Resolves argv es → Leaves (sockets Answered) ∅ es)) := by
  cases main_finishes h with
  | server hargs c new hsession =>
    refine ⟨fun _ => ?_,fun hc => absurd hc (not_both hargs)⟩
    refine ⟨⟨fun hallowed => ?_,?_⟩,?_⟩
    · rw [← List.append_assoc, allowed_append] at hallowed
      exact ⟨c.skt,listens_iff.mpr ⟨(creating_allowed _ _ c new).mp hallowed.1,rfl⟩⟩
    · rintro ⟨skt,hskt⟩
      exact (server_leaves (listens_iff.mp hskt).1 hsession hr).1
    · intro skt hskt
      obtain ⟨hc,rfl⟩ := listens_iff.mp hskt
      obtain ⟨hallowed,hafter⟩ := server_leaves hc hsession hr
      exact leaves_after hallowed hr hafter
  | client hargs answer skt ok hopen self hsession =>
    refine ⟨fun hs => absurd hargs (not_both hs),fun _ hstatus => ?_⟩
    have hc := hopen.resolve_right hstatus
    obtain ⟨hallowed,hafter⟩ := client_leaves hc hsession hr
    exact ⟨iff_of_true hallowed (resolves_iff.mpr hc.1),fun _ => leaves_after hallowed hr hafter⟩
  | stranger hargs answer skt ok hopen =>
    refine ⟨fun hs => absurd hargs (not_both hs),fun _ _ => ?_⟩
    have hallowed := connecting_allowed g.res (argv.getD 2 []) (argv.getD 3 []) answer skt ok
    have hresolves := @resolves_iff argv [] g.res answer skt ok
    rw [List.append_nil] at hresolves
    refine ⟨hallowed.trans hresolves.symm,fun h => ?_⟩
    have ha := hresolves.mp h
    apply leaves_after (hallowed.mpr ha) hr
    rw [connecting_after _ _ _ skt ok ha]
    -- a descriptor that got connected is not abandoned, and -1 is none
    by_cases hok : ok = true
    · have hskt : skt = -1 := not_not.mp fun hne => hopen (.inl ⟨ha,hne,hok⟩)
      rw [if_pos hok, hskt, held, if_pos rfl]
    · exact if_neg hok
  | usage hserver hclient t =>
    exact ⟨fun hs => absurd hs hserver,fun hc => absurd hc hclient⟩

def servedArgs : List Text := [text "tp",text "server",text "8080"]

theorem session_hangsUp (skt : ℤ) : ∃ len r, r.2 = .endgame ∧
    Performs (serverSession 1 garbage none skt)
      [⟨.recv skt len,some ⟨[],Nat.zero_le _⟩⟩,⟨.close skt,()⟩] (.ret r) := by
  obtain ⟨len,next,after,-,hrecv,hnext,hafter⟩ := SudokuPlay.serverLoop_hangsUp
    garbage.messageLen .argsOk 0 garbage.server { blankBoard .ok with status := .ok }
  refine ⟨len,(⟨.shutdown,garbage.server,{ blankBoard .ok with status := .ok }⟩,.endgame),rfl,?_⟩
  have hloop : SudokuPlay.sudokuRunServer garbage.messageLen 1 garbage.server (blankBoard .ok) none
      .argsOk = .call (.recv len) next := hrecv
  show Performs ((SudokuPlay.sudokuRunServer garbage.messageLen 1 garbage.server (blankBoard .ok)
    none .argsOk).interp (onSocket skt (serverDestroy skt) fun _ => .ret ())) _ _
  rw [hloop]
  refine .step _ _ _ ?_
  show Performs ((next (some ⟨[],Nat.zero_le _⟩)).interp
    (onSocket skt (serverDestroy skt) fun _ => .ret ())) _ _
  rw [hnext]
  refine .step _ _ _ ?_
  show Performs ((after ()).interp (onSocket skt (serverDestroy skt) fun _ => .ret ())) _ _
  rw [hafter]
  exact .none _

def served (len : ℕ) : List (Event (system stdio)) :=
  creating garbage.res (text "8080") ⟨some 7,3,true,true,true⟩++
    (accepting 3 (text "8080") 4++[⟨.recv 4 len,some ⟨[],Nat.zero_le _⟩⟩,⟨.close 4,()⟩])

theorem served_performs :
    ∃ len, Performs (main 1 garbage none servedArgs) (served len) (.ret exitSuccess) := by
  obtain ⟨len,r,hr,hsession⟩ := session_hangsUp 4
  refine ⟨len,?_⟩
  have hend := performs_bind (performs_bind hsession fun r =>
    (.ret ⟨'S'.toUInt8,text "8080",[],r.2⟩ : Process Sudoku)) fun game =>
      (.ret (exitCode game.status) : Process ℕ)
  rw [Program.ret_bind, Program.ret_bind, hr] at hend
  rw [main, sudokuSetMode, if_pos (by decide)]
  iterate 9 apply Performs.step
  exact hend

theorem main_resources_served : ∃ len, Leaves (sockets Answered) {.descriptor 3} (served len) := by
  obtain ⟨len,h⟩ := served_performs
  have hr : (sockets Answered).contract.Relied ∅ (served len) := by
    simp [served, creating, binding, listening, accepting, Contract.Relied, Discipline.contract,
      sockets, Creation.addresses, held, Answered]
  have hlistens : Listens servedArgs 3 (served len) :=
    listens_iff.mpr ⟨⟨Option.some_ne_none 7,by decide,rfl,rfl⟩,rfl⟩
  exact ⟨len,((main_resources 1 garbage none servedArgs (served len) exitSuccess h hr).1
    (by decide)).2 3 hlistens⟩

end Workshop.SudokuExit
