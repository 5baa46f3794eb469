import GitlabPages.Path

/-!
# The shared connection limiter

`internal/netutil/shared_limit_listener.go`. Listeners made by
`SharedLimitListener` share one `Limiter`, whose slots are the buffer of the
channel `sem` (capacity `n`). `Accept` takes a slot in `acquire` (a send on
`sem`, unless the listener's `done` is closed first: Go's `select` takes
either when both are ready), then calls the underlying `Accept`; a failed
underlying `Accept` gives its slot back, a successful one hands it to the
connection, whose first `Close` gives it back (`releaseOnce`). `Close` of the
listener closes the underlying listener, then `done` (`closeOnce`).

Every call is a thread (`CallPc`) in a list, so that the calls holding a slot
can be counted; the accepted connections are a list of `releaseOnce` flags.
Each step is one statement of the source that touches shared state. The
underlying listener is the environment: an underlying `Accept` may fail at
any time, and one that began after the underlying `Close` returned fails
(`mustFail`, recorded when `acquire` returns, just before the underlying
`Accept` begins).

Over every run (`shared_limit_accounting`): the tokens in `sem` are exactly
the connections not yet released plus the `Accept` calls that hold a slot;
so at most `n` connections are open, every release finds its token, and a
call that acquired nothing never gets a connection.

Key definitions: `CallPc`, `LimitState`, `LimitStep`, `LimitInv`.
Key theorems: `limitInv_step`, `shared_limit_accounting`.
-/

namespace GitlabPages
namespace Netutil

/-- Where a call is. `acquired` is the result of `acquire`; `mustFail` that
the underlying `Close` had returned when the underlying `Accept` began. -/
inductive CallPc
  /-- `Accept` on listener `l`, in `acquire`'s `select`. -/
  | acquiring (l : Nat)
  /-- `Accept`, in `l.Listener.Accept()`. -/
  | accepting (l : Nat) (acquired mustFail : Bool)
  /-- `Accept`, its underlying `Accept` failed with a slot acquired: at `l.release()`. -/
  | releasing (l : Nat)
  /-- `Accept` returned connection `c`, or an error. -/
  | accepted (c : Option Nat)
  /-- `Close` of listener `l`, past `l.Listener.Close()`, at `closeOnce.Do`. -/
  | closingListener (l : Nat)
  /-- `Close` of connection `c`, past `c.Conn.Close()`, at `releaseOnce.Do`. -/
  | closingConn (c : Nat)
  /-- A `Close` returned. -/
  | closed
  deriving DecidableEq, Repr

/-- The call holds a slot it acquired: its underlying `Accept` is running, or
failed and the slot is not yet given back. -/
def CallPc.holdsSlot : CallPc → Bool
  | .accepting _ true _ | .releasing _ => true
  | _ => false

/-- The limiter, its listeners and the calls on them. `sem` is `len(sem)`;
`released` holds, for each connection `Accept` returned, whether its
`releaseOnce` has run. -/
structure LimitState where
  sem : Nat
  done : Nat → Bool
  underlyingClosed : Nat → Bool
  released : List Bool
  calls : List CallPc

/-- `NewLimiter(n)`, before any call. -/
def LimitState.init : LimitState := ⟨0, fun _ => false, fun _ => false, [], []⟩

section Steps

variable (cap : Nat)

/-- The steps of the listeners sharing a limiter of capacity `cap`. -/
inductive LimitStep : LimitState → LimitState → Prop
  /-- A call of `Accept` on listener `l`. -/
  | accept {s : LimitState} (l : Nat) : LimitStep s { s with calls := s.calls ++ [.acquiring l] }
  /-- `acquire`: `<-l.done` is ready. -/
  | acquireDone {s : LimitState} {i l : Nat} : s.calls[i]? = some (.acquiring l) → s.done l = true →
      LimitStep s { s with calls := s.calls.set i (.accepting l false (s.underlyingClosed l)) }
  /-- `acquire`: the send on `sem` is ready. -/
  | acquireSem {s : LimitState} {i l : Nat} : s.calls[i]? = some (.acquiring l) → s.sem < cap →
      LimitStep s { s with sem := s.sem + 1, calls := s.calls.set i (.accepting l true (s.underlyingClosed l)) }
  /-- The underlying `Accept` returns a connection. -/
  | acceptOk {s : LimitState} {i l : Nat} {acquired : Bool} :
      s.calls[i]? = some (.accepting l acquired false) →
      LimitStep s { s with
        released := s.released ++ [false]
        calls := s.calls.set i (.accepted (some s.released.length)) }
  /-- The underlying `Accept` fails. -/
  | acceptErr {s : LimitState} {i l : Nat} {acquired mustFail : Bool} :
      s.calls[i]? = some (.accepting l acquired mustFail) →
      LimitStep s { s with calls := s.calls.set i (if acquired then .releasing l else .accepted none) }
  /-- `l.release()` after a failed underlying `Accept`. -/
  | releaseErr {s : LimitState} {i l : Nat} : s.calls[i]? = some (.releasing l) → 0 < s.sem →
      LimitStep s { s with sem := s.sem - 1, calls := s.calls.set i (.accepted none) }
  /-- A call of `Close` on listener `l`: `l.Listener.Close()` returns. -/
  | close {s : LimitState} (l : Nat) :
      LimitStep s { s with
        underlyingClosed := Function.update s.underlyingClosed l true
        calls := s.calls ++ [.closingListener l] }
  /-- `closeOnce.Do(func() { close(l.done) })`. -/
  | closeDone {s : LimitState} {i l : Nat} : s.calls[i]? = some (.closingListener l) →
      LimitStep s { s with done := Function.update s.done l true, calls := s.calls.set i .closed }
  /-- A call of `Close` on connection `c`: `c.Conn.Close()` returns. -/
  | connClose {s : LimitState} {c : Nat} : c < s.released.length →
      LimitStep s { s with calls := s.calls ++ [.closingConn c] }
  /-- `c.releaseOnce.Do(c.release)`, the first time. -/
  | connRelease {s : LimitState} {i c : Nat} : s.calls[i]? = some (.closingConn c) →
      s.released[c]? = some false → 0 < s.sem →
      LimitStep s { s with sem := s.sem - 1, released := s.released.set c true, calls := s.calls.set i .closed }
  /-- `c.releaseOnce.Do(c.release)`, once it has run. -/
  | connReleased {s : LimitState} {i c : Nat} : s.calls[i]? = some (.closingConn c) →
      s.released[c]? = some true → LimitStep s { s with calls := s.calls.set i .closed }

/-- The states reachable from `NewLimiter(cap)`. -/
def LimitReachable (s : LimitState) : Prop := Relation.ReflTransGen (LimitStep cap) LimitState.init s

end Steps

/-! ### Counting after an update -/

theorem countP_set_of_getElem? {α : Type} (p : α → Bool) (a : α) {l : List α} {i : Nat} {b : α}
    (h : l[i]? = some b) :
    (l.set i a).countP p + (if p b then 1 else 0) = l.countP p + (if p a then 1 else 0) := by
  obtain ⟨hi, rfl⟩ := List.getElem?_eq_some_iff.mp h
  have := List.boole_getElem_le_countP p l i hi
  rw [List.countP_set p l i a hi]
  omega

theorem count_set_of_getElem? (a : Bool) {l : List Bool} {i : Nat} {b : Bool} (h : l[i]? = some b) :
    (l.set i a).count false + (if b = false then 1 else 0) = l.count false + (if a = false then 1 else 0) := by
  simpa [List.count_eq_countP] using countP_set_of_getElem? (· == false) a h

/-! ### The invariant -/

/-- What a call's place says of the state: a call that acquired nothing began
its underlying `Accept` after the underlying `Close` returned; a `Close` of a
listener is past the underlying `Close`; a `Close` of a connection names one
that `Accept` returned. -/
def CallPc.ok (s : LimitState) : CallPc → Prop
  | .accepting _ false mustFail => mustFail = true
  | .closingListener l => s.underlyingClosed l = true
  | .closingConn c => c < s.released.length
  | _ => True

/-- What no step undoes: connections stay accepted, listeners stay closed. -/
def Grows (s s' : LimitState) : Prop :=
  s.released.length ≤ s'.released.length ∧ ∀ l, s.underlyingClosed l = true → s'.underlyingClosed l = true

theorem CallPc.ok_mono {s s' : LimitState} (hg : Grows s s') : ∀ {pc : CallPc}, pc.ok s → pc.ok s'
  | .accepting _ false _, h => h
  | .accepting _ true _, h => h
  | .closingListener l, h => hg.2 l h
  | .closingConn _, h => Nat.lt_of_lt_of_le h hg.1
  | .acquiring _, h | .releasing _, h | .accepted _, h | .closed, h => h

theorem forall_ok_set {s s' : LimitState} (hg : Grows s s') (hok : ∀ pc ∈ s.calls, pc.ok s) {i : Nat}
    {a : CallPc} (ha : a.ok s') : ∀ pc ∈ s.calls.set i a, pc.ok s' := fun pc hm =>
  (List.mem_or_eq_of_mem_set hm).elim (fun hm => CallPc.ok_mono hg (hok pc hm)) (· ▸ ha)

theorem forall_ok_append {s s' : LimitState} (hg : Grows s s') (hok : ∀ pc ∈ s.calls, pc.ok s)
    {a : CallPc} (ha : a.ok s') : ∀ pc ∈ s.calls ++ [a], pc.ok s' := fun pc hm =>
  (List.mem_append.mp hm).elim (fun hm => CallPc.ok_mono hg (hok pc hm)) (fun hm => List.mem_singleton.mp hm ▸ ha)

/-- The limiter's invariant: the tokens in `sem` are the connections not yet
released plus the calls that hold a slot, at most `cap`; `done` is closed
only after the underlying listener; and every call's place agrees with the
state. -/
structure LimitInv (cap : Nat) (s : LimitState) : Prop where
  tokens : s.sem = s.released.count false + s.calls.countP CallPc.holdsSlot
  le_cap : s.sem ≤ cap
  done_closed : ∀ l, s.done l = true → s.underlyingClosed l = true
  calls_ok : ∀ pc ∈ s.calls, pc.ok s

section Invariant

variable {cap : Nat}

theorem limitInv_init : LimitInv cap LimitState.init :=
  ⟨rfl, Nat.zero_le _, (fun _ h => by cases h), (fun _ h => by cases h)⟩

theorem limitStep_grows {s s' : LimitState} (h : LimitStep cap s s') : Grows s s' := by
  cases h
  case close l =>
    refine ⟨le_rfl, fun l' h => ?_⟩
    by_cases hl : l' = l
    · subst hl; simp
    · simpa [Function.update_noteq hl] using h
  case acceptOk => exact ⟨by simp, fun _ h => h⟩
  case connRelease => exact ⟨by simp, fun _ h => h⟩
  all_goals exact ⟨le_rfl, fun _ h => h⟩

theorem limitInv_step {s s' : LimitState} (hi : LimitInv cap s) (h : LimitStep cap s s') : LimitInv cap s' := by
  have hg := limitStep_grows h
  obtain ⟨htok, hcap, hdone, hok⟩ := hi
  cases h with
  | accept l => exact ⟨by simp [htok, CallPc.holdsSlot], hcap, hdone, forall_ok_append hg hok trivial⟩
  | @acquireDone i l hc hd =>
    have hcount := countP_set_of_getElem? CallPc.holdsSlot (.accepting l false (s.underlyingClosed l)) hc
    simp [CallPc.holdsSlot] at hcount
    exact ⟨by dsimp only; omega, hcap, hdone, forall_ok_set hg hok (hdone l hd)⟩
  | @acquireSem i l hc hlt =>
    have hcount := countP_set_of_getElem? CallPc.holdsSlot (.accepting l true (s.underlyingClosed l)) hc
    simp [CallPc.holdsSlot] at hcount
    exact ⟨by dsimp only; omega, hlt, hdone, forall_ok_set hg hok trivial⟩
  | @acceptOk i l acq hc =>
    cases acq
    · exact absurd (hok _ (List.getElem?_mem hc)) Bool.false_ne_true
    have hcount := countP_set_of_getElem? CallPc.holdsSlot (.accepted (some s.released.length)) hc
    simp [CallPc.holdsSlot] at hcount
    exact ⟨by simp only [List.count_append]; simp; omega, hcap, hdone, forall_ok_set hg hok trivial⟩
  | @acceptErr i l acq mf hc =>
    have hcount := countP_set_of_getElem? CallPc.holdsSlot (if acq then .releasing l else .accepted none) hc
    refine ⟨?_, hcap, hdone, forall_ok_set hg hok (by cases acq <;> trivial)⟩
    dsimp only
    cases acq <;> simp [CallPc.holdsSlot] at hcount ⊢ <;> omega
  | @releaseErr i l hc hpos =>
    have hcount := countP_set_of_getElem? CallPc.holdsSlot (.accepted none) hc
    simp [CallPc.holdsSlot] at hcount
    exact ⟨by dsimp only; omega, by dsimp only; omega, hdone, forall_ok_set hg hok trivial⟩
  | close l =>
    refine ⟨by simp [htok, CallPc.holdsSlot], hcap, fun l' hl' => ?_,
      forall_ok_append hg hok (by simp [CallPc.ok])⟩
    by_cases hl : l' = l
    · subst hl; simp
    · simpa [Function.update_noteq hl] using hdone l' hl'
  | @closeDone i l hc =>
    have hcount := countP_set_of_getElem? CallPc.holdsSlot .closed hc
    simp [CallPc.holdsSlot] at hcount
    refine ⟨by dsimp only; omega, hcap, fun l' hl' => ?_, forall_ok_set hg hok trivial⟩
    by_cases hl : l' = l
    · subst hl; exact hok _ (List.getElem?_mem hc)
    · exact hdone l' (by simpa [Function.update_noteq hl] using hl')
  | @connClose c hlt => exact ⟨by simp [htok, CallPc.holdsSlot], hcap, hdone, forall_ok_append hg hok hlt⟩
  | @connRelease i c hc hr hpos =>
    have hcount := countP_set_of_getElem? CallPc.holdsSlot .closed hc
    have hrel := count_set_of_getElem? true hr
    simp [CallPc.holdsSlot] at hcount hrel
    exact ⟨by dsimp only; omega, by dsimp only; omega, hdone, forall_ok_set hg hok trivial⟩
  | @connReleased i c hc hr =>
    have hcount := countP_set_of_getElem? CallPc.holdsSlot .closed hc
    simp [CallPc.holdsSlot] at hcount
    exact ⟨by dsimp only; omega, hcap, hdone, forall_ok_set hg hok trivial⟩

theorem limitInv_of_reachable {s : LimitState} (hs : LimitReachable cap s) : LimitInv cap s := by
  induction hs with
  | refl => exact limitInv_init
  | tail _ hst ih => exact limitInv_step ih hst

end Invariant

/-! ### Over every run -/

/-- **The limiter's accounting.** In every state the listeners sharing a
limiter of capacity `cap` reach, whatever the interleaving of `Accept` calls,
`Close` calls on the connections (any number, from any goroutine) and `Close`
calls on the listeners: the tokens in `sem` are the connections whose
release has not run plus the `Accept` calls that hold an acquired slot, and
they are at most `cap`; a release, after a failed `Accept` or in a
connection's first `Close`, finds a token, and a later `Close` finds its
`releaseOnce` done; and an `Accept` whose `acquire` returned `false` began its
underlying `Accept` after the underlying `Close` returned, so it fails. -/
theorem shared_limit_accounting (cap : Nat) (s : LimitState) (hs : LimitReachable cap s) :
    s.sem = s.released.count false + s.calls.countP CallPc.holdsSlot ∧
      s.released.count false + s.calls.countP CallPc.holdsSlot ≤ cap ∧
      (∀ i l : Nat, s.calls[i]? = some (CallPc.releasing l) → 0 < s.sem) ∧
      (∀ i c : Nat, s.calls[i]? = some (CallPc.closingConn c) → ∃ b, s.released[c]? = some b ∧ (b = false → 0 < s.sem)) ∧
      (∀ l mustFail, CallPc.accepting l false mustFail ∈ s.calls → mustFail = true) := by
  obtain ⟨htok, hcap, -, hok⟩ := limitInv_of_reachable hs
  refine ⟨htok, htok ▸ hcap, fun i l hc => ?_, fun i c hc => ?_, fun l m hm => hok _ hm⟩
  · have : 0 < s.calls.countP CallPc.holdsSlot := List.countP_pos_iff.mpr ⟨_, List.getElem?_mem hc, rfl⟩
    omega
  · have hlt : c < s.released.length := hok _ (List.getElem?_mem hc)
    refine ⟨s.released[c], List.getElem?_eq_getElem hlt, fun hb => ?_⟩
    have : 0 < s.released.count false := List.count_pos_iff.mpr (hb ▸ List.getElem_mem hlt)
    omega

/-- A limiter of one slot after listener `0` accepted a connection and a
`Close` of it reached `releaseOnce`. -/
def connClosing : LimitState := ⟨1, fun _ => false, fun _ => false, [false], [.accepted (some 0), .closingConn 0]⟩

/-- The same limiter after that `Close` released the slot. -/
def connReleased : LimitState := ⟨0, fun _ => false, fun _ => false, [true], [.accepted (some 0), .closed]⟩

/-- One connection through a limiter of one slot: `Accept`, `acquire`, the
underlying `Accept`, `Close`, and `releaseOnce`. The `Close` finds its token,
and after the release `sem` is empty. -/
theorem shared_limit_accounting_conn :
    LimitReachable 1 connClosing ∧ LimitReachable 1 connReleased ∧
      (∃ b, connClosing.released[0]? = some b ∧ (b = false → 0 < connClosing.sem)) ∧
      connReleased.sem = connReleased.released.count false + connReleased.calls.countP CallPc.holdsSlot := by
  have h₄ : LimitReachable 1 connClosing :=
    (((Relation.ReflTransGen.single (LimitStep.accept (s := LimitState.init) 0)).tail
      (LimitStep.acquireSem (i := 0) rfl (by decide))).tail (LimitStep.acceptOk (i := 0) rfl)).tail
      (LimitStep.connClose (c := 0) (by decide))
  have h₅ : LimitReachable 1 connReleased := h₄.tail (LimitStep.connRelease (i := 1) (c := 0) rfl rfl (by decide))
  exact ⟨h₄, h₅, (shared_limit_accounting 1 _ h₄).2.2.2.1 1 0 rfl, (shared_limit_accounting 1 _ h₅).1⟩

end Netutil
end GitlabPages
