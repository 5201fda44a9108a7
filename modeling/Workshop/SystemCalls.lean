import Workshop.ByteChannel
import Workshop.OwnedResources

/-!
# The system calls of both programs

A socket is set up, used and closed through its descriptor, and the addresses
it is set up from are freed. Descriptors are integers, `-1` stands for none.
-/

set_option autoImplicit false

namespace Workshop.SystemCalls
open Workshop.CMemory Workshop.InteractiveProgram Workshop.ByteChannel Workshop.OwnedResources

inductive SystemOp (O : Type) where
  | getaddrinfo (node : Option Text) (service : Text) (passive : Bool)
  | freeaddrinfo (res : ℕ)
  | socket (res : ℕ)
  | connect (skt : ℤ) (res : ℕ)
  | setsockopt (skt : ℤ)
  | bind (skt : ℤ) (res : ℕ)
  | listen (skt : ℤ) (backlog : ℕ)
  | accept (skt : ℤ)
  | recv (skt : ℤ) (len : ℕ)
  | send (skt : ℤ) (buf : Text)
  | shutdown (skt : ℤ)
  | close (skt : ℤ)
  | other (op : O)
  deriving DecidableEq

/-- Addresses come with the status 0 only. Where an answer is `true` or `false`
it tells whether it was 0 or -1. -/
abbrev SystemRes (I : Interface) : SystemOp I.Op → Type
  | .getaddrinfo _ _ _ => Option ℕ
  | .freeaddrinfo _ => Unit
  | .socket _ => ℤ
  | .connect _ _ => Bool
  | .setsockopt _ => Bool
  | .bind _ _ => Bool
  | .listen _ _ => Bool
  | .accept _ => ℤ
  | .recv _ len => Option {bs : Text // bs.length ≤ len}
  | .send _ buf => Option {count : ℕ // count ≤ buf.length}
  | .shutdown _ => Bool
  | .close _ => Unit
  | .other op => I.Res op

abbrev system (I : Interface) : Interface := ⟨SystemOp I.Op,SystemRes I⟩

inductive Resource where
  | descriptor (skt : ℤ)
  | addresses (res : ℕ)
  deriving DecidableEq, Repr

/-- A call on the descriptor -1 fails and does no harm. -/
def held (skt : ℤ) : Finset Resource := if skt = -1 then ∅ else {.descriptor skt}

theorem addresses_apart (res : ℕ) (skt : ℤ) : Disjoint {.addresses res} (held skt) := by
  rw [Finset.disjoint_singleton_left, held]
  split <;> simp

theorem addresses_freed (res : ℕ) (skt : ℤ) :
    ({.addresses res} ∪ held skt) \ {.addresses res} = held skt := by
  rw [Finset.union_sdiff_distrib, Finset.sdiff_self, Finset.empty_union,
    Finset.sdiff_eq_self_of_disjoint (addresses_apart res skt).symm]

theorem descriptor_closed (res : ℕ) (skt : ℤ) :
    ({.addresses res} ∪ held skt) \ held skt = {.addresses res} := by
  rw [Finset.union_sdiff_distrib, Finset.sdiff_self, Finset.union_empty,
    Finset.sdiff_eq_self_of_disjoint (addresses_apart res skt)]

variable {I J : Interface} {α : Type}

/-- Descriptors are used until they are closed, and addresses until they are
freed. A call on what is not held is answered like any other, where the real one
may abort the process, as a second `freeaddrinfo` does. The runs without such
calls are those that are `Allowed`. -/
def sockets (promises : (op : I.Op) → I.Res op → Prop) : Discipline (system I) Resource where
  uses
    | .socket res => {.addresses res}
    | .connect skt res => held skt ∪ {.addresses res}
    | .setsockopt skt => held skt
    | .bind skt res => held skt ∪ {.addresses res}
    | .listen skt _ => held skt
    | .accept skt => held skt
    | .recv skt _ => held skt
    | .send skt _ => held skt
    | .shutdown skt => held skt
    | _ => ∅
  takes
    | .freeaddrinfo res => {.addresses res}
    | .close skt => held skt
    | _ => ∅
  hands op r :=
    match op, r with
    | .getaddrinfo _ _ _, some res => {.addresses res}
    | .socket _, skt => held skt
    | .accept _, skt => held skt
    | _, _ => ∅
  promises op r :=
    match op, r with
    | .other op, r => promises op r
    | _, _ => True

section Sessions
variable (skt : ℤ) (closing : Program (system J) Halt Unit)
  (other : (op : I.Op) → Program (system J) Halt (I.Res op))

def onSocket : (op : NetOp I.Op) → Program (system J) Halt (NetRes I op)
  | .recv len => .call (.recv skt len) .ret
  | .send buf => .call (.send skt buf) .ret
  | .shutdown => closing
  | .other op => other op

/-- The connection is not used any more once it is closed. -/
def once (P : (op : I.Op) → I.Res op → Prop) : Contract (net I) Bool where
  may closed op :=
    match op with
    | .other _ => True
    | _ => closed = false
  rely _ op r :=
    match op, r with
    | .other op, r => P op r
    | _, _ => True
  view closed op _ :=
    match op with
    | .shutdown => true
    | _ => closed

def connection (closed : Bool) : Finset Resource := if closed then ∅ else held skt

variable {skt closing other} {promises : (op : J.Op) → J.Res op → Prop}
  {P : (op : I.Op) → I.Res op → Prop} {Q : α → Bool → Prop} {R : Halt → Bool → Prop}

theorem keeps_onSocket {p : Program (net I) Halt α}
    (hclosing : Keeps (sockets promises).contract (fun _ l => l = ∅)
      (fun e l => l = held skt ∧ R e false) closing (held skt))
    (hother : ∀ op l, Keeps (sockets promises).contract (fun r l' => l' = l ∧ P op r)
      (fun _ _ => False) (other op) l)
    (hp : Keeps (once P) Q R p false) :
    Keeps (sockets promises).contract (fun a l => ∃ closed, l = connection skt closed ∧ Q a closed)
      (fun e l => ∃ closed, l = connection skt closed ∧ R e closed)
      (p.interp (onSocket skt closing other)) (held skt) := by
  apply keeps_interp (fun closed l => l = connection skt closed) _ hp rfl
  rintro closed l op rfl hmay
  cases op with
  | recv len =>
    obtain rfl : closed = false := hmay
    exact keeps_use subset_rfl rfl (fun _ => rfl) fun _ _ => ⟨trivial,rfl⟩
  | send buf =>
    obtain rfl : closed = false := hmay
    exact keeps_use subset_rfl rfl (fun _ => rfl) fun _ _ => ⟨trivial,rfl⟩
  | shutdown =>
    obtain rfl : closed = false := hmay
    exact keeps_mono (fun _ l hl => ⟨trivial,hl⟩) (fun e l h => ⟨false,h.1,h.2⟩) hclosing
  | other op =>
    exact keeps_mono (fun r l h => ⟨h.2,h.1⟩) (fun e l h => h.elim) (hother op _)

/-- Next to resources of others, a session that closes its connection leaves just these. -/
theorem session_leaves {p : Program (net I) Halt α} {es : List (Event (system J))} {a : α}
    {f : Finset Resource}
    (hclosing : Keeps (sockets promises).contract (fun _ l => l = ∅)
      (fun _ l => l = held skt ∧ True) closing (held skt))
    (hother : ∀ op l, Keeps (sockets promises).contract (fun r l' => l' = l ∧ P op r)
      (fun _ _ => False) (other op) l)
    (hp : Keeps (once P) (fun _ closed => closed = true) (fun _ _ => True) p false)
    (h : Performs (p.interp (onSocket skt closing other)) es (.ret a))
    (hf : Disjoint (held skt) f) (hr : (sockets promises).contract.Relied (held skt ∪ f) es) :
    Allowed (sockets promises).contract (held skt ∪ f) es ∧
      (sockets promises).contract.after (held skt ∪ f) es = f := by
  have hkeeps := keeps_onSocket hclosing hother hp
  obtain ⟨hallowed,own,hown,-,closed,hclosed,rfl⟩ := keeps_returns h (keeps_frame hkeeps hf) hr
  refine ⟨hallowed,?_⟩
  rw [hown, hclosed, connection, if_pos rfl, Finset.empty_union]

def trusting (promises : (op : J.Op) → J.Res op → Prop) : Contract (system J) Unit where
  may _ _ := True
  rely _ op r := (sockets promises).promises op r
  view _ _ _ := ()

theorem keeps_session {p : Program (net I) Halt α}
    (hclosing : Keeps (trusting promises) (fun _ _ => True) (fun _ _ => False) closing ())
    (hother : ∀ op, Keeps (trusting promises) (fun r _ => P op r) (fun _ _ => False) (other op) ())
    (hp : Keeps (once P) Q (fun _ _ => True) p false) :
    Keeps (trusting promises) (fun a _ => ∃ closed, Q a closed) (fun _ _ => True)
      (p.interp (onSocket skt closing other)) () := by
  refine keeps_mono (fun a _ ⟨closed,_,h⟩ => ⟨closed,h⟩) (fun _ _ _ => trivial)
    (keeps_interp (fun _ _ => True) ?_ hp trivial)
  intro closed _ op _ _
  cases op with
  | recv len => exact ⟨trivial,fun _ _ => ⟨trivial,trivial⟩⟩
  | send buf => exact ⟨trivial,fun _ _ => ⟨trivial,trivial⟩⟩
  | shutdown => exact keeps_mono (fun _ _ _ => ⟨trivial,trivial⟩) (fun _ _ h => h.elim) hclosing
  | other op => exact keeps_mono (fun r _ h => ⟨h,trivial⟩) (fun _ _ h => h.elim) (hother op)

theorem relied_trusting {es : List (Event (system J))}
    (h : ∀ e ∈ es, (sockets promises).promises e.op e.res) : (trusting promises).Relied () es := by
  induction es with
  | nil => trivial
  | cons e es ih => exact ⟨h e List.mem_cons_self,ih fun e he => h e (List.mem_cons_of_mem _ he)⟩

end Sessions

section Transfers
variable {β : Type} {P : (op : I.Op) → I.Res op → Prop} {Q : α → Prop} {Q' : β → Bool → Prop}

def Stays (P : (op : I.Op) → I.Res op → Prop) (Q : α → Prop) (p : Program (net I) Halt α) : Prop :=
  Keeps (once P) (fun a closed => closed = false ∧ Q a) (fun _ _ => True) p false

theorem stays_then {p : Program (net I) Halt α} {f : α → Program (net I) Halt β}
    (hp : Stays P Q p)
    (hf : ∀ a, Q a → Keeps (once P) Q' (fun _ _ => True) (f a) false) :
    Keeps (once P) Q' (fun _ _ => True) (p >>= f) false := by
  apply keeps_bind
  apply keeps_mono _ (fun _ _ h => h) hp
  rintro a closed ⟨rfl,ha⟩
  exact hf a ha

theorem stays_recvLoop {n : ℕ} (len : ℕ) (buf : Vector UInt8 n) (got : ℕ) :
    Stays P (fun _ => True) (recvLoop len buf got : Program (net I) Halt (ℕ × Vector UInt8 n)) := by
  induction hm : len-got using Nat.strong_induction_on generalizing buf got with
  | _ m ih =>
    subst hm
    rw [recvLoop]
    by_cases hlt : got < len
    · rw [if_pos hlt]
      refine ⟨rfl,fun r _ => ?_⟩
      rcases r with _ | ⟨_ | ⟨c,cs⟩,hle⟩
      · exact ⟨rfl,trivial⟩
      · exact ⟨rfl,trivial⟩
      · dsimp only
        cases storeAll buf got (c::cs) with
        | ok buf => exact ih _ (by omega) buf (got+(cs.length+1)) rfl
        | error f => trivial
    · rw [if_neg hlt]
      exact ⟨rfl,trivial⟩

theorem stays_sendLoop (rest : Text) :
    Stays P (fun _ => True) (sendLoop rest : Program (net I) Halt SendEnd) := by
  induction hm : rest.length using Nat.strong_induction_on generalizing rest with
  | _ m ih =>
    subst hm
    rw [sendLoop]
    by_cases hrest : rest = []
    · rw [if_pos hrest]
      exact ⟨rfl,trivial⟩
    · rw [if_neg hrest]
      refine ⟨rfl,fun r _ => ?_⟩
      rcases r with _ | ⟨_ | count,hle⟩
      · exact ⟨rfl,trivial⟩
      · exact ⟨rfl,trivial⟩
      · have hless : (rest.drop (count+1)).length < rest.length := by
          rw [List.length_drop]
          omega
        exact ih _ hless _ rfl

end Transfers

end Workshop.SystemCalls
