import Workshop.CMemory
import Workshop.InteractiveProgram

/-!
# Byte channels with partial transfers

The system calls on a connected stream socket, next to the calls of another
interface. `recv` answers with a count of bytes, zero at the end of the stream
or a failure, and `send` may take a part of the buffer only. The two loops
that transfer a whole block are stated once for every program that has them.
-/

set_option autoImplicit false

namespace Workshop.ByteChannel
open Workshop.CMemory Workshop.InteractiveProgram

inductive NetOp (O : Type) where
  | recv (len : ℕ)
  | send (buf : Text)
  | shutdown
  | other (op : O)

/-- `none` is the answer -1. A byte count never exceeds what was asked for. -/
abbrev NetRes (I : Interface) : NetOp I.Op → Type
  | .recv len => Option {bs : Text // bs.length ≤ len}
  | .send buf => Option {count : ℕ // count ≤ buf.length}
  | .shutdown => Unit
  | .other op => I.Res op

abbrev net (I : Interface) : Interface := ⟨NetOp I.Op,NetRes I⟩

inductive SendEnd where
  | complete
  | stopped
  | failed
  deriving DecidableEq, Repr

variable {I : Interface} {n : ℕ}

/-- `while (running && got < len)` around `recv(&buf[got], len-got)`. The loop
is left on 0 and on -1. -/
def recvLoop (len : ℕ) (buf : Vector UInt8 n) (got : ℕ) :
    Program (net I) Halt (ℕ × Vector UInt8 n) :=
  if got < len then
    .call (.recv (len-got)) fun answer =>
      match answer with
      | none => .ret (got,buf)
      | some ⟨[],_⟩ => .ret (got,buf)
      | some ⟨c::cs,_⟩ =>
        match storeAll buf got (c::cs) with
        | .ok buf => recvLoop len buf (got+(cs.length+1))
        | .error f => .fail (.fault f)
  else .ret (got,buf)
termination_by len-got

/-- `while (running && sent < len)` around `send(&buf[sent], len-sent)`, on the
bytes which are still to be sent. -/
def sendLoop (rest : Text) : Program (net I) Halt SendEnd :=
  if rest = [] then .ret .complete
  else .call (.send rest) fun answer =>
    match answer with
    | none => .ret .failed
    | some ⟨0,_⟩ => .ret .stopped
    | some ⟨count+1,_⟩ => sendLoop (rest.drop (count+1))
termination_by rest.length
decreasing_by
  rename_i hle
  rw [List.length_drop]
  omega

/-- How the transfers are cut: call number `k` moves at most `piece k + 1` or
`accepted k + 1` bytes, `closing k` selects 0 or -1 at the end of the stream,
and a broken send answers -1. -/
structure Delivery where
  piece : ℕ → ℕ
  closing : ℕ → Bool
  accepted : ℕ → ℕ
  broken : ℕ → Bool

def Delivery.Reliable (d : Delivery) : Prop := ∀ k, d.broken k = false

def byteByByte : Delivery := ⟨fun _ => 0,fun _ => true,fun _ => 0,fun _ => false⟩

theorem byteByByte_reliable : byteByByte.Reliable := fun _ => rfl

structure Wire where
  incoming : Text
  outgoing : Text
  calls : ℕ

def pieceSize (d : Delivery) (w : Wire) (len : ℕ) : ℕ :=
  min (min len w.incoming.length) (d.piece w.calls+1)

theorem piece_le (d : Delivery) (w : Wire) (len : ℕ) :
    (w.incoming.take (pieceSize d w len)).length ≤ len := by
  simp only [pieceSize, List.length_take]
  omega

def recvAnswer (d : Delivery) (w : Wire) (len : ℕ) : Option {bs : Text // bs.length ≤ len} :=
  if w.incoming = [] then if d.closing w.calls then some ⟨[],Nat.zero_le _⟩ else none
  else some ⟨w.incoming.take (pieceSize d w len),piece_le d w len⟩

def sendSize (d : Delivery) (w : Wire) (buf : Text) : ℕ :=
  if d.broken w.calls then 0 else min buf.length (d.accepted w.calls+1)

theorem sendSize_le (d : Delivery) (w : Wire) (buf : Text) : sendSize d w buf ≤ buf.length := by
  unfold sendSize
  split <;> omega

def sendAnswer (d : Delivery) (w : Wire) (buf : Text) : Option {count : ℕ // count ≤ buf.length} :=
  if d.broken w.calls then none else some ⟨sendSize d w buf,sendSize_le d w buf⟩

def sentBy (d : Delivery) (left k : ℕ) : Option ℕ :=
  if left = 0 then some k
  else if d.broken k then none
  else sentBy d (left-(d.accepted k+1)) (k+1)
termination_by left

variable {σ : Type}

def wired (d : Delivery) (H : Handler I Halt σ) : Handler (net I) Halt (Wire × σ)
  | .recv len, (w,s) => (.ok (recvAnswer d w len),
      { w with incoming := w.incoming.drop (pieceSize d w len), calls := w.calls+1 },s)
  | .send buf, (w,s) => (.ok (sendAnswer d w buf),
      { w with outgoing := w.outgoing ++ buf.take (sendSize d w buf), calls := w.calls+1 },s)
  | .shutdown, (w,s) => (.ok (),{ w with calls := w.calls+1 },s)
  | .other op, (w,s) => ((H op s).1,w,(H op s).2)

section Loops
variable (d : Delivery) (H : Handler I Halt σ)

theorem overwrite_append (a : Vector UInt8 n) (k : ℕ) (cs ds : Text)
    (h : k+(cs++ds).length ≤ n) :
    overwrite (overwrite a k cs) (k+cs.length) ds = overwrite a k (cs++ds) := by
  rw [List.length_append] at h
  have happ := storeAll_append a k cs ds
  rw [storeAll_fits a k (cs++ds) (by simpa using h), storeAll_fits a k cs (by omega), ok_bind,
    show (k:ℤ)+cs.length = ((k+cs.length:ℕ):ℤ) by simp,
    storeAll_fits _ _ ds (by omega)] at happ
  exact (Except.ok.inj happ).symm

theorem recvAnswer_end {w : Wire} (h : w.incoming = []) (len : ℕ) :
    recvAnswer d w len = none ∨ recvAnswer d w len = some ⟨[],Nat.zero_le _⟩ := by
  rw [recvAnswer, if_pos h]
  cases d.closing w.calls <;> simp

theorem recvAnswer_piece {w : Wire} (h : w.incoming ≠ []) {len : ℕ} (hlen : 0 < len) :
    ∃ c cs hle, recvAnswer d w len = some ⟨c::cs,hle⟩ ∧
      w.incoming.take (cs.length+1) = c::cs ∧ pieceSize d w len = cs.length+1 ∧
      cs.length+1 ≤ min len w.incoming.length := by
  have hpos := List.length_pos_iff.mpr h
  have hmin : pieceSize d w len ≤ min len w.incoming.length := min_le_left _ _
  have hsize : (w.incoming.take (pieceSize d w len)).length = pieceSize d w len := by
    rw [List.length_take]
    omega
  have hone : 0 < pieceSize d w len := by
    simp only [pieceSize]
    omega
  obtain ⟨c,cs,hp⟩ := List.exists_cons_of_length_pos (hsize ▸ hone)
  have hcs : pieceSize d w len = cs.length+1 := by rw [← hsize, hp, List.length_cons]
  refine ⟨c,cs,hp ▸ piece_le d w len,?_,?_,hcs,hcs ▸ hmin⟩
  · rw [recvAnswer, if_neg h]
    simp only [hp]
  · rw [← hcs, hp]

theorem run_recvLoop (len : ℕ) (buf : Vector UInt8 n) (got : ℕ) (w : Wire) (s : σ)
    (hfit : got+min (len-got) w.incoming.length ≤ n) :
    ∃ k, run (wired d H) (recvLoop len buf got) (w,s) =
      (.ok (got+min (len-got) w.incoming.length,
        overwrite buf got (w.incoming.take (len-got))),
        ⟨w.incoming.drop (len-got),w.outgoing,k⟩,s) := by
  induction hm : len-got using Nat.strong_induction_on generalizing buf got w with
  | _ m ih =>
    subst hm
    rw [recvLoop]
    by_cases hlt : got < len
    · rw [if_pos hlt, run_call, wired, andThen_ok]
      by_cases hend : w.incoming = []
      · rcases recvAnswer_end d hend (len-got) with h | h <;>
          exact ⟨w.calls+1,by simp [h, hend, overwrite_nil]⟩
      · obtain ⟨c,cs,hle,hans,htake,hsize,hmin⟩ := recvAnswer_piece d hend (by omega : 0 < len-got)
        have hrest : (w.incoming.drop (cs.length+1)).length = w.incoming.length-(cs.length+1) :=
          List.length_drop ..
        have hlen : len-(got+(cs.length+1)) = len-got-(cs.length+1) := by omega
        obtain ⟨k,hk⟩ := ih (len-got-(cs.length+1)) (by omega) (overwrite buf got (c::cs))
          (got+(cs.length+1)) ⟨w.incoming.drop (cs.length+1),w.outgoing,w.calls+1⟩
          (by simp only [hrest]; omega) hlen
        refine ⟨k,?_⟩
        have hsum : len-got = (cs.length+1)+(len-got-(cs.length+1)) := by omega
        have hjoin : w.incoming.take (len-got) =
            (c::cs) ++ (w.incoming.drop (cs.length+1)).take (len-got-(cs.length+1)) := by
          rw [← htake, ← List.take_add, ← hsum]
        have hover := overwrite_append buf got (c::cs)
          ((w.incoming.drop (cs.length+1)).take (len-got-(cs.length+1)))
          (by rw [← hjoin, List.length_take]; omega)
        simp only [hans, hsize, storeAll_fits buf got (c::cs) (by simp; omega), hk, hjoin, ← hover,
          List.length_cons, List.drop_drop, ← hsum, hrest]
        rw [show got+(cs.length+1)+min (len-got-(cs.length+1)) (w.incoming.length-(cs.length+1)) =
          got+min (len-got) w.incoming.length by omega]
    · have hz : len-got = 0 := by omega
      exact ⟨w.calls,by simp [hlt, hz, overwrite_nil]⟩

theorem run_recvLoop_overrun (len : ℕ) (buf : Vector UInt8 n) (got : ℕ) (w : Wire) (s : σ)
    (hgot : got ≤ n) (hover : n < got+min (len-got) w.incoming.length) :
    (run (wired d H) (recvLoop len buf got) (w,s)).1 = .error (.fault .outOfBounds) := by
  induction hm : len-got using Nat.strong_induction_on generalizing buf got w with
  | _ m ih =>
    subst hm
    have hend : w.incoming ≠ [] := by
      intro hnil
      rw [hnil, List.length_nil] at hover
      omega
    obtain ⟨c,cs,hle,hans,-,hsize,hmin⟩ := recvAnswer_piece d hend (by omega : 0 < len-got)
    rw [recvLoop, if_pos (by omega), run_call, wired, andThen_ok]
    by_cases hfit : got+(c::cs).length ≤ n
    · rw [List.length_cons] at hfit
      simp only [hans, hsize, storeAll_fits buf got (c::cs) hfit]
      apply ih (len-(got+(cs.length+1))) (by omega) _ _ _ hfit _ rfl
      simp only [List.length_drop]
      omega
    · simp only [hans, storeAll_overrun buf got (c::cs) hgot (by omega), run_fail]

theorem sendAnswer_some (hd : d.Reliable) (w : Wire) {buf : Text} (h : buf ≠ []) :
    ∃ count hle, sendAnswer d w buf = some ⟨count+1,hle⟩ ∧ sendSize d w buf = count+1 := by
  have hpos := List.length_pos_iff.mpr h
  obtain ⟨count,hcount⟩ : ∃ count, sendSize d w buf = count+1 :=
    Nat.exists_eq_succ_of_ne_zero (by simp [sendSize, hd w.calls, h])
  refine ⟨count,hcount ▸ sendSize_le d w buf,?_,hcount⟩
  rw [sendAnswer, hd w.calls]
  simp [hcount]

theorem run_sendLoop (hd : d.Reliable) (rest : Text) (w : Wire) (s : σ) :
    ∃ k, run (wired d H) (sendLoop rest) (w,s) =
      (.ok .complete,⟨w.incoming,w.outgoing ++ rest,k⟩,s) := by
  induction hm : rest.length using Nat.strong_induction_on generalizing rest w with
  | _ m ih =>
    subst hm
    rw [sendLoop]
    by_cases hnil : rest = []
    · exact ⟨w.calls,by simp [hnil]⟩
    · obtain ⟨count,hle,hans,hsize⟩ := sendAnswer_some d hd w hnil
      obtain ⟨k,hk⟩ := ih (rest.drop (count+1)).length (by rw [List.length_drop]; omega)
        (rest.drop (count+1)) ⟨w.incoming,w.outgoing ++ rest.take (count+1),w.calls+1⟩ rfl
      rw [List.append_assoc, List.take_append_drop] at hk
      refine ⟨k,?_⟩
      rw [if_neg hnil, run_call, wired, andThen_ok]
      simp only [hans, hsize, hk]

theorem run_sendLoop_cases (rest : Text) (w : Wire) (s : σ) :
    (∃ k, sentBy d rest.length w.calls = some k ∧
      run (wired d H) (sendLoop rest) (w,s) =
        (.ok .complete,⟨w.incoming,w.outgoing++rest,k⟩,s)) ∨
      (sentBy d rest.length w.calls = none ∧ ∃ out k,
        run (wired d H) (sendLoop rest) (w,s) = (.ok .failed,⟨w.incoming,out,k⟩,s)) := by
  induction hm : rest.length using Nat.strong_induction_on generalizing rest w with
  | _ m ih =>
    subst hm
    rw [sendLoop, sentBy]
    by_cases hnil : rest = []
    · exact .inl ⟨w.calls,by simp [hnil],by simp [hnil]⟩
    · have hpos := List.length_pos_iff.mpr hnil
      rw [if_neg hnil, if_neg (by omega : ¬ rest.length = 0), run_call, wired, andThen_ok]
      cases hbroken : d.broken w.calls with
      | true =>
        right
        have hans : sendAnswer d w rest = none := by simp [sendAnswer, hbroken]
        rw [hans]
        exact ⟨if_pos rfl,_,_,rfl⟩
      | false =>
        obtain ⟨count,hcount⟩ : ∃ count, sendSize d w rest = count+1 :=
          Nat.exists_eq_succ_of_ne_zero (by simp [sendSize, hbroken, hnil])
        have hans : sendAnswer d w rest = some ⟨count+1,hcount ▸ sendSize_le d w rest⟩ := by
          simp [sendAnswer, hbroken, hcount]
        have hleft : rest.length-(d.accepted w.calls+1) = (rest.drop (count+1)).length := by
          rw [sendSize, hbroken, if_neg Bool.false_ne_true] at hcount
          rw [List.length_drop]
          omega
        rw [if_neg Bool.false_ne_true, hleft]
        simp only [hans, hcount]
        have hdrop := ih (rest.drop (count+1)).length (by rw [List.length_drop]; omega)
          (rest.drop (count+1)) ⟨w.incoming,w.outgoing++rest.take (count+1),w.calls+1⟩ rfl
        rw [List.append_assoc, List.take_append_drop] at hdrop
        exact hdrop

theorem run_sendLoop_ends (rest : Text) (w : Wire) (s : σ) :
    ∃ r out k, run (wired d H) (sendLoop rest) (w,s) = (.ok r,⟨w.incoming,out,k⟩,s) := by
  rcases run_sendLoop_cases d H rest w s with ⟨k,-,hrun⟩ | ⟨-,out,k,hrun⟩
  · exact ⟨.complete,_,k,hrun⟩
  · exact ⟨.failed,out,k,hrun⟩

end Loops

end Workshop.ByteChannel
