import Mathlib.Data.List.Basic
import Rollcall.Http.Exchange

/-!
# Which server decides

A request goes to servers in their order, and no further than to the first one whose reply can be
read: a response, or a refusal by the store. If there is none it goes to all of them and fails as at
the last one. So the first server that replies at all decides a request if its reply can be read or
no server is left after it; otherwise the request goes on although it was already answered.
-/

namespace Rollcall.Http

open Store (Request Response Refusal Answer)

namespace Exchange

/-- Whether a server replied. -/
def isReply : Exchange → Bool
  | reply .. => true
  | _ => false

/-- Whether a server replied with what its status promises: a response, or else a refusal. -/
def isLegible : Exchange → Bool
  | reply status body =>
    if 200 ≤ status ∧ status < 300 then (body.bind Response.decode).isSome
    else (body.bind Refusal.decode).isSome
  | _ => false

theorem settles_answer (endpoint : String) (m : Message) (x : Exchange) :
    settles (x.answer endpoint m) = x.isLegible := by
  cases x with
  | reply status body =>
    by_cases hs : 200 ≤ status ∧ status < 300
    · simp only [answer, readReply, isLegible, if_pos hs]
      cases body.bind Response.decode <;> rfl
    · simp only [answer, readReply, isLegible, if_neg hs]
      cases body.bind Refusal.decode <;> rfl
  | _ => rfl

theorem isLegible_of_not_isReply {x : Exchange} (h : x.isReply = false) : x.isLegible = false := by
  cases x with
  | reply _ _ => cases h
  | _ => rfl

end Exchange

/-- The failure with which a message is left after servers that did not settle it: that of the last
one, or the one before them. -/
def leftWith (m : Message) (failure : Answer) (servers : List (String × Exchange)) : Answer :=
  (servers.getLast?.map fun s => s.2.answer s.1 m).getD failure

variable {m : Message} {failure : Answer} {before after servers : List (String × Exchange)}
  {endpoint : String} {x : Exchange}

theorem leftWith_cons : leftWith m failure ((endpoint, x) :: servers) =
    leftWith m (x.answer endpoint m) servers := by
  simp only [leftWith, List.getLast?_cons]
  cases servers.getLast? <;> rfl

theorem leftWith_concat : leftWith m failure (before ++ [(endpoint, x)]) = x.answer endpoint m := by
  rw [leftWith, List.getLast?_concat]
  rfl

/-- Where nobody replied before an illegible reply, no reply is legible so far. -/
theorem illegible_concat (hbefore : ∀ s ∈ before, s.2.isReply = false)
    (hx : x.isLegible = false) : ∀ s ∈ before ++ [(endpoint, x)], s.2.isLegible = false := by
  intro s hm
  rcases List.mem_append.mp hm with hm | hm
  · exact Exchange.isLegible_of_not_isReply (hbefore s hm)
  · rw [List.mem_singleton.mp hm]
    exact hx

/-! ## Deliveries -/

/-- Servers without a legible reply are passed over. -/
theorem deliver_append (h : ∀ s ∈ before, s.2.isLegible = false) :
    deliver m failure (before ++ after) =
      { deliver m (leftWith m failure before) after with
        tried := before ++ (deliver m (leftWith m failure before) after).tried } := by
  induction before generalizing failure with
  | nil => rfl
  | cons s before ih =>
    obtain ⟨endpoint, x⟩ := s
    have hx : settles (x.answer endpoint m) = false :=
      (x.settles_answer endpoint m).trans (h _ (.head _))
    rw [List.cons_append, deliver, hx, leftWith_cons, ih fun s hs => h s (.tail _ hs)]
    rfl

/-- The first legible reply decides. -/
theorem deliver_of_legible (hbefore : ∀ s ∈ before, s.2.isLegible = false)
    (h : x.isLegible = true) :
    deliver m failure (before ++ (endpoint, x) :: after) =
      ⟨before ++ [(endpoint, x)], x.answer endpoint m⟩ := by
  rw [deliver_append hbefore, deliver, x.settles_answer, h]
  rfl

/-- Without a legible reply all servers are tried, and the last one's failure is left. -/
theorem deliver_of_illegible (h : ∀ s ∈ servers, s.2.isLegible = false) :
    deliver m failure servers = ⟨servers, leftWith m failure servers⟩ := by
  have happend : deliver m failure (servers ++ []) = _ := deliver_append h
  rw [List.append_nil] at happend
  rw [happend, deliver, List.append_nil]

theorem tried_ne_nil (h : servers ≠ []) : (deliver m failure servers).tried ≠ [] := by
  cases servers with
  | nil => exact absurd rfl h
  | cons s servers =>
    rw [deliver]
    split
    · exact List.cons_ne_nil _ _
    · exact List.cons_ne_nil _ _

/-! ## Who decides -/

/-- The rule that the first server at which an exchange passes a test decides: the message goes to
the servers up to that one, and to all of them if there is none, and the answer is what became of it
at the last one to which it went. -/
structure FirstDecides (test : Exchange → Bool) (m : Message) (servers : List (String × Exchange))
    (d : Delivery) : Prop where
  passed : ∀ {before after : List (String × Exchange)} {endpoint : String} {x : Exchange},
    servers = before ++ (endpoint, x) :: after → (∀ s ∈ before, test s.2 = false) →
    test x = true → d = ⟨before ++ [(endpoint, x)], x.answer endpoint m⟩
  failed : (∀ s ∈ servers, test s.2 = false) → d = ⟨servers, leftWith m noServers servers⟩

/-- For every request and all servers, whatever becomes of it at each: the first legible reply
decides. That is the first reply of all if and only if this one is legible, or comes from the last
server. -/
theorem send_decides (r : Request) (servers : List (String × Exchange)) :
    FirstDecides Exchange.isLegible (Message.ofRequest r) servers (send r servers) ∧
    (FirstDecides Exchange.isReply (Message.ofRequest r) servers (send r servers) ↔
      ∀ before endpoint x after, servers = before ++ (endpoint, x) :: after →
        (∀ s ∈ before, s.2.isReply = false) → x.isReply = true →
        x.isLegible = true ∨ after = []) := by
  refine ⟨⟨fun hs hbefore hx => ?_, deliver_of_illegible⟩, fun h => ?_, fun h => ?_⟩
  · subst hs
    exact deliver_of_legible hbefore hx
  · intro before endpoint x after hs hbefore hx
    by_contra hor
    obtain ⟨hlegible, hafter⟩ := not_or.mp hor
    -- The message went on after the reply.
    have hd := congrArg Delivery.tried (h.passed hs hbefore hx)
    rw [hs, List.append_cons, send,
      deliver_append (illegible_concat hbefore (eq_false_of_ne_true hlegible))] at hd
    exact tried_ne_nil hafter (List.append_right_eq_self.mp hd)
  · have hsilent : ∀ {l : List (String × Exchange)}, (∀ s ∈ l, s.2.isReply = false) →
        ∀ s ∈ l, s.2.isLegible = false :=
      fun hl s hm => Exchange.isLegible_of_not_isReply (hl s hm)
    refine ⟨fun {before after endpoint x} hs hbefore hx => ?_,
      fun hnone => deliver_of_illegible (hsilent hnone)⟩
    cases hlegible : x.isLegible with
    | true =>
      subst hs
      exact deliver_of_legible (hsilent hbefore) hlegible
    | false =>
      obtain rfl := (h _ _ _ _ hs hbefore hx).resolve_left (by simp [hlegible])
      subst hs
      have hlast : leftWith (Message.ofRequest r) noServers (before ++ [(endpoint, x)]) = _ :=
        leftWith_concat
      rw [← hlast]
      exact deliver_of_illegible (illegible_concat hbefore hlegible)

/-- A creation that one server acknowledges in words of its own goes on to the next one, which
carries it out again. -/
theorem acknowledged_post_goes_on :
    let r : Request := .post "/d/announces" "v" (some 5)
    let servers : List (String × Exchange) := [
      ("a:2379", .reply 201 (some "created")),
      ("b:2379", .reply 201 (some "\x7b\"action\":\"create\"\x7d"))]
    send r servers = ⟨servers, .ok { action := "create" }⟩ ∧
      ¬FirstDecides Exchange.isReply (Message.ofRequest r) servers (send r servers) := by
  intro r servers
  have hsent : send r servers = ⟨servers, .ok { action := "create" }⟩ := rfl
  refine ⟨hsent, fun h => ?_⟩
  have hservers : servers = [] ++ ("a:2379", .reply 201 (some "created")) :: [_] := rfl
  have hfirst := h.passed hservers (List.forall_mem_nil _) rfl
  rw [hsent] at hfirst
  exact absurd (congrArg (fun d => d.tried.length) hfirst) (by decide)

end Rollcall.Http
