import Rollcall.Http.Message

/-!
# Exchanges with servers

A message is sent to one server after another until one of them gives an answer that can be used: a
response, or a refusal by the store. A server that cannot be reached, takes too long, breaks off, or
replies with something that is neither, is passed over; if all are, the failure is that of the last
one.
-/

namespace Rollcall.Http

open Store (Request Response Refusal Failure Answer)

/-- What became of a message at one server. -/
inductive Exchange
  | unreachable (reason : String)
  | connectTimedOut
  /-- The two sides do not speak the same protocol. -/
  | noHandshake (reason : String)
  /-- The message cannot be sent as it is. -/
  | unsendable (reason : String)
  | timedOut
  | brokenOff (reason : String)
  /-- A reply; its body is missing if it is not text. -/
  | reply (status : Nat) (body : Option String)
  deriving DecidableEq, Repr

/-- The standard reasons of status codes. -/
def reasons : List (Nat × String) := [
  (100, "Continue"), (101, "Switching Protocols"), (102, "Processing"), (200, "OK"),
  (201, "Created"), (202, "Accepted"), (203, "Non Authoritative Information"),
  (204, "No Content"), (205, "Reset Content"), (206, "Partial Content"), (207, "Multi-Status"),
  (208, "Already Reported"), (226, "IM Used"), (300, "Multiple Choices"),
  (301, "Moved Permanently"), (302, "Found"), (303, "See Other"), (304, "Not Modified"),
  (305, "Use Proxy"), (307, "Temporary Redirect"), (308, "Permanent Redirect"),
  (400, "Bad Request"), (401, "Unauthorized"), (402, "Payment Required"), (403, "Forbidden"),
  (404, "Not Found"), (405, "Method Not Allowed"), (406, "Not Acceptable"),
  (407, "Proxy Authentication Required"), (408, "Request Timeout"), (409, "Conflict"),
  (410, "Gone"), (411, "Length Required"), (412, "Precondition Failed"),
  (413, "Payload Too Large"), (414, "URI Too Long"), (415, "Unsupported Media Type"),
  (416, "Range Not Satisfiable"), (417, "Expectation Failed"), (418, "I'm a teapot"),
  (421, "Misdirected Request"), (422, "Unprocessable Entity"), (423, "Locked"),
  (424, "Failed Dependency"), (426, "Upgrade Required"), (428, "Precondition Required"),
  (429, "Too Many Requests"), (431, "Request Header Fields Too Large"),
  (451, "Unavailable For Legal Reasons"), (500, "Internal Server Error"),
  (501, "Not Implemented"), (502, "Bad Gateway"), (503, "Service Unavailable"),
  (504, "Gateway Timeout"), (505, "HTTP Version Not Supported"),
  (506, "Variant Also Negotiates"), (507, "Insufficient Storage"), (508, "Loop Detected"),
  (510, "Not Extended"), (511, "Network Authentication Required")]

/-- A status code with its standard reason. -/
def statusText (status : Nat) : String :=
  ofNat status ++ " " ++ (reasons.lookup status).getD "<unknown status code>"

/-- The answer in a reply. -/
def readReply (status : Nat) (body : Option String) : Answer :=
  if 200 ≤ status ∧ status < 300 then
    match body.bind Response.decode with
    | some r => .ok r
    | none => .error (.transport "malformed store response: not a response")
  else
    match body.bind Refusal.decode with
    | some r => .error (.refused r)
    | none => .error (.transport ("unexpected store status " ++ statusText status))

/-- The answer that one exchange gives. -/
def Exchange.answer (endpoint : String) (m : Message) (x : Exchange) : Answer :=
  let line := methodName m.method ++ " " ++ m.target
  match x with
  | unreachable reason => .error (.transport ("connect to " ++ endpoint ++ ": " ++ reason))
  | connectTimedOut => .error (.transport ("connect to " ++ endpoint ++ " timed out"))
  | noHandshake reason => .error (.transport ("handshake with " ++ endpoint ++ ": " ++ reason))
  | unsendable reason => .error (.transport ("invalid request: " ++ reason))
  | timedOut => .error (.transport (line ++ " timed out"))
  | brokenOff reason => .error (.transport (line ++ ": " ++ reason))
  | reply status body => readReply status body

/-- Whether an answer settles a request, so that no other server is asked. -/
def settles : Answer → Bool
  | .error (.transport _) => false
  | _ => true

/-- How a message was delivered. -/
structure Delivery where
  /-- The servers to which it was sent, in order, and what became of it there. -/
  tried : List (String × Exchange)
  answer : Answer

/-- Deliver a message to one server after another until one settles it, or else with the failure of
the last one; `failure` is the one before these servers. -/
def deliver (m : Message) (failure : Answer) : List (String × Exchange) → Delivery
  | [] => { tried := [], answer := failure }
  | (endpoint, x) :: rest =>
    let a := x.answer endpoint m
    if settles a then { tried := [(endpoint, x)], answer := a }
    else
      let d := deliver m a rest
      { d with tried := (endpoint, x) :: d.tried }

/-- The failure of a store without servers. -/
def noServers : Answer := .error (.transport "no store endpoints configured")

/-- Deliver a request to servers, by what becomes of its message at each. -/
def send (r : Request) (servers : List (String × Exchange)) : Delivery :=
  deliver (Message.ofRequest r) noServers servers

/-- The answer to a request, by what becomes of its message at each server. -/
def answer (endpoints : List String) (exchange : String → Exchange) (r : Request) : Answer :=
  (send r (endpoints.map fun endpoint => (endpoint, exchange endpoint))).answer

end Rollcall.Http
