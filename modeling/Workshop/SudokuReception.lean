import Workshop.SudokuStrings

/-!
# The reception of an answer

A reception counts on its header. The length read from it is not compared with
the bytes that came in, nor with the size of the buffer: a stream that ends
early leaves bytes of earlier answers in what is printed, and a length outside
the buffer is a store outside it.
-/

set_option autoImplicit false

namespace Workshop.SudokuReception
open Workshop.CMemory Workshop.InteractiveProgram Workshop.ByteChannel
open Workshop.SudokuProtocol Workshop.SudokuStrings

def announced (incoming : Text) : ℤ := atoi ((incoming.take 3).takeWhile (· ≠ 0))

def answerBody (incoming : Text) : Text := (incoming.drop 3).take (announced incoming).toNat

/-- The buffer behind the reception of an answer. -/
def answerBuffer (received : Vector UInt8 receivedBoard) (incoming : Text) :
    Vector UInt8 receivedBoard :=
  overwrite (overwrite received 0 (answerBody incoming)) ((announced incoming).toNat-1) [0]

def shown (received : Vector UInt8 receivedBoard) : Text :=
  received.toList.takeWhile (· ≠ 0)++[newline]

section Transfers
variable (d : Delivery) {I : Interface} {σ : Type} (H : Handler I Halt σ) (w : Wire) (s : σ)
  {n : ℕ}

theorem run_receiveHeader :
    ∃ status header k,
      run (wired d H) (sktReceive (headerLen-1) (Vector.replicate headerLen 0)) (w,s) =
        (.ok (status,header),⟨w.incoming.drop 3,w.outgoing,k⟩,s) ∧
      cString header = .ok ((w.incoming.take 3).takeWhile (· ≠ 0)) := by
  have h3 : (((headerLen:ℕ):ℤ)-1).toNat = 3 := by decide
  obtain ⟨k,hk⟩ := run_sktReceive_part d H (headerLen-1) (Vector.replicate headerLen 0) w s
    (by rw [h3]; simp only [headerLen]; omega)
  rw [h3] at hk
  exact ⟨_,_,k,hk,header_string (List.length_take_le ..)⟩

end Transfers

section Calls
variable (d : Delivery) (received : Vector UInt8 receivedBoard) (w : Wire) (s : Stdio)

theorem run_receiveString_none (h : announced w.incoming = 0) :
    ∃ k, run (wired d terminal) (protocolReceiveString received) (w,s) =
      (.ok (.receptionFailure,received),⟨w.incoming.drop 3,w.outgoing,k⟩,s) := by
  obtain ⟨status,header,k,hrun,hheader⟩ := run_receiveHeader d terminal w s
  refine ⟨k,?_⟩
  rw [protocolReceiveString, run_bind, hrun, andThen_ok, hheader, checked_ok, Program.ret_bind,
    ← announced, if_pos h, run_ret]

theorem printReceived_inside {len : ℤ} (h1 : 1 ≤ len) (h2 : len ≤ receivedBoard) :
    printReceived len received = .ok (overwrite received (len.toNat-1) [0],
      shown (overwrite received (len.toNat-1) [0])) := by
  have hk : len-1 = ((len.toNat-1:ℕ):ℤ) := by omega
  have hlt : len.toNat-1 < receivedBoard := by simp only [receivedBoard] at h2 ⊢; omega
  have hstore := storeAll_fits received (len.toNat-1) [0] hlt
  rw [storeAll, store_nat received _ hlt, ok_bind, storeAll] at hstore
  have hmem : (0:UInt8) ∈ (overwrite received (len.toNat-1) [0]).toList := by
    rw [← Except.ok.inj hstore]
    exact Vector.mem_toList_iff.mpr (Vector.mem_set _)
  rw [printReceived, hk, store_nat received _ hlt, hstore, ok_bind, cString, if_pos hmem]
  rfl

theorem printReceived_outside {len : ℤ} (h : len < 1 ∨ receivedBoard < len) :
    printReceived len received = .error .outOfBounds := by
  rw [printReceived, store_fault received (len-1) (by simp only [receivedBoard] at h ⊢; omega)]
  rfl

theorem run_receiveString_fits (h1 : 1 ≤ announced w.incoming)
    (h2 : announced w.incoming ≤ receivedBoard) :
    ∃ k, run (wired d terminal) (protocolReceiveString received) (w,s) =
      (.ok (receptionStatus (answerBody w.incoming),answerBuffer received w.incoming),
        ⟨(w.incoming.drop 3).drop (announced w.incoming).toNat,w.outgoing,k⟩,
        { s with printed := s.printed++[shown (answerBuffer received w.incoming)] }) := by
  obtain ⟨status,header,k1,hrun,hheader⟩ := run_receiveHeader d terminal w s
  obtain ⟨k2,hbody⟩ := run_sktReceive_part d terminal (announced w.incoming) received
    ⟨w.incoming.drop 3,w.outgoing,k1⟩ s (by simp only [receivedBoard] at h2 ⊢; omega)
  refine ⟨k2,?_⟩
  rw [protocolReceiveString, run_bind, hrun, andThen_ok, hheader, checked_ok, Program.ret_bind,
    ← announced, if_neg (by omega), run_bind, hbody, andThen_ok, printReceived_inside _ h1 h2]
  rfl

theorem run_receiveString_outside
    (h : announced w.incoming < 0 ∨ receivedBoard < announced w.incoming) :
    (run (wired d terminal) (protocolReceiveString received) (w,s)).1 =
      .error (.fault .outOfBounds) := by
  obtain ⟨status,header,k,hrun,hheader⟩ := run_receiveHeader d terminal w s
  rw [protocolReceiveString, run_bind, hrun, andThen_ok, hheader, checked_ok, Program.ret_bind,
    ← announced, if_neg (by omega), run_bind_stops]
  by_cases hover : receivedBoard < min (announced w.incoming).toNat (w.incoming.drop 3).length
  · exact .inl (run_sktReceive_overrun d terminal _ _ ⟨w.incoming.drop 3,w.outgoing,k⟩ s hover)
  · obtain ⟨k',hbody⟩ := run_sktReceive_part d terminal (announced w.incoming) received
      ⟨w.incoming.drop 3,w.outgoing,k⟩ s (not_lt.mp hover)
    refine .inr ⟨_,_,hbody,?_⟩
    rw [printReceived_outside _ (by omega)]
    rfl

def Complete (incoming : Text) : Prop :=
  3 ≤ incoming.length ∧ 3+announced incoming ≤ incoming.length

/-- The call returns. It prints nothing, and succeeds on complete answers only,
or it prints a complete answer without its last byte. -/
def ShowsComplete : Prop :=
  ∃ status received' w' s',
    run (wired d terminal) (protocolReceiveString received) (w,s) = (.ok (status,received'),w',s') ∧
      ((s' = s ∧ (status = .receptionSuccess → Complete w.incoming)) ∨
        (Complete w.incoming ∧ s' = { s with printed :=
          s.printed++[(answerBody w.incoming).dropLast.takeWhile (· ≠ 0)++[newline]] }))

theorem overwrite_last (init : Text) (last : UInt8) :
    overwrite (overwrite received 0 (init++[last])) init.length [0] =
      overwrite received 0 (init++[0]) := by
  apply Vector.ext
  intro i hi
  rw [overwrite_get, overwrite_get, overwrite_get]
  rcases lt_trichotomy i init.length with hlt | rfl | hgt
  · rw [if_neg (by omega), if_pos (by simp; omega), if_pos (by simp; omega), Nat.sub_zero,
      List.getD_append _ _ _ _ hlt, List.getD_append _ _ _ _ hlt]
  · rw [if_pos (by simp), if_pos (by simp), Nat.sub_zero, List.getD_append_right _ _ _ _ le_rfl]
  · rw [if_neg (by simp; omega), if_neg (by simp; omega), if_neg (by simp; omega)]

/-- A body that is there leaves nothing of earlier answers in what is printed. -/
theorem shown_complete (incoming : Text) (h1 : 1 ≤ announced incoming)
    (h2 : announced incoming ≤ receivedBoard) (hall : 3+announced incoming ≤ incoming.length) :
    shown (answerBuffer received incoming) =
      (answerBody incoming).dropLast.takeWhile (· ≠ 0)++[newline] := by
  have hlen : (answerBody incoming).length = (announced incoming).toNat := by
    rw [answerBody, List.length_take, List.length_drop]
    omega
  have hne : answerBody incoming ≠ [] := List.length_pos_iff.mp (by omega)
  obtain ⟨init,last,hbody⟩ : ∃ init last, answerBody incoming = init++[last] :=
    ⟨_,_,(List.dropLast_append_getLast hne).symm⟩
  have hinit : (announced incoming).toNat-1 = init.length := by
    rw [← hlen, hbody, List.length_append]
    rfl
  have hfit : init.length < receivedBoard := by simp only [receivedBoard] at h2 ⊢; omega
  rw [shown, answerBuffer, hinit, hbody, overwrite_last received init last,
    overwrite_toList _ _ (by simpa using hfit), List.append_assoc, List.singleton_append,
    takeWhile_nul, List.dropLast_concat]

/-- An answer is shown as it has to be exactly when there is none or all of it. -/
theorem receiveString_complete_iff :
    ShowsComplete d received w s ↔ announced w.incoming = 0 ∨
      (1 ≤ announced w.incoming ∧ announced w.incoming ≤ receivedBoard ∧
        3+announced w.incoming ≤ w.incoming.length) := by
  constructor
  · rintro ⟨status,received',w',s',hrun,hshows⟩
    by_cases h0 : announced w.incoming = 0
    · exact .inl h0
    · by_cases hout : announced w.incoming < 0 ∨ receivedBoard < announced w.incoming
      · have hfault := run_receiveString_outside d received w s hout
        rw [hrun] at hfault
        cases hfault
      · obtain ⟨k,hk⟩ := run_receiveString_fits d received w s (by omega) (by omega)
        rcases hshows with ⟨hnone,-⟩ | ⟨hall,-⟩
        · rw [hk] at hrun
          have hprinted := congrArg (fun r => r.2.2.printed.length) hrun
          simp [hnone] at hprinted
        · exact .inr ⟨by omega,by omega,hall.2⟩
  · rintro (h0 | ⟨h1,h2,hall⟩)
    · obtain ⟨k,hk⟩ := run_receiveString_none d received w s h0
      exact ⟨_,_,_,_,hk,.inl ⟨rfl,nofun⟩⟩
    · obtain ⟨k,hk⟩ := run_receiveString_fits d received w s h1 h2
      rw [shown_complete received w.incoming h1 h2 hall] at hk
      exact ⟨_,_,_,_,hk,.inr ⟨⟨by omega,hall⟩,rfl⟩⟩

theorem receiveString_mixed :
    (∃ received' w', run (wired byteByByte terminal)
        (protocolReceiveString (Vector.replicate _ 'x'.toUInt8))
        (⟨text "005ab",[],0⟩,⟨[],[],[]⟩) =
      (.ok (.receptionSuccess,received'),w',⟨[],[text "abxx\n"],[]⟩)) ∧
      ¬ ∀ d received w s, ShowsComplete d received w s := by
  have hpartial := run_receiveString_fits byteByByte (Vector.replicate _ 'x'.toUInt8)
    ⟨text "005ab",[],0⟩ ⟨[],[],[]⟩ (by decide) (by decide)
  have hshown : shown (answerBuffer (Vector.replicate _ 'x'.toUInt8) (text "005ab")) =
      text "abxx\n" := by decide +kernel
  have hstatus : receptionStatus (answerBody (text "005ab")) = .receptionSuccess := by decide
  rw [hshown, hstatus] at hpartial
  constructor
  · obtain ⟨k,hk⟩ := hpartial
    exact ⟨_,_,hk⟩
  · intro hall
    have hcomplete := (receiveString_complete_iff byteByByte (Vector.replicate _ 'x'.toUInt8)
      ⟨text "005ab",[],0⟩ ⟨[],[],[]⟩).mp (hall ..)
    exact absurd hcomplete (by decide)

end Calls

end Workshop.SudokuReception
