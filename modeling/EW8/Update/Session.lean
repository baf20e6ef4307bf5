import EW8.Lib.Transition
import EW8.Lib.Exchange
import EW8.Update.Client

/-!
# An upload session

A client running `UploadFile`, an engine, and the packets between them: in each direction
they keep their order, and each may be lost, or arrive at any later time. All threads take
their steps in any order (`Action`): the client's, the receiving threads of both sides, the
one that stores chunks, and those that run scripts.
-/

namespace EW8.Update

/-- A client, an engine, and the packets between them. -/
structure Session where
  client : Client
  engine : Engine
  link : Exchange Packet Acknowledge

/-- The steps of a session. -/
inductive Action
  /-- The thread of `UploadFile` goes on. -/
  | client
  /-- The next acknowledgement arrives. -/
  | acknowledge
  /-- The next packet arrives at the engine. -/
  | receive (o : Outcome)
  /-- `WriteFile` goes on, after the thread has stored the chunk before. -/
  | finishWrite
  /-- The thread stores the chunk handed to it. -/
  | writer (fault : Option WriteFault)
  /-- The `i`-th script thread goes on. -/
  | script (i : ℕ)
  /-- The update script of the `i`-th thread writes a status. -/
  | scriptStatus (i : ℕ) (version : String) (done : Bool)
  /-- The `i`-th packet on the way to the engine, or to the client, is lost. -/
  | losePacket (i : ℕ)
  | loseAcknowledge (i : ℕ)

namespace Session

variable (u : Upload) (s : Session)

/-- The engine and the link after a packet has been handled, answered at once or not. -/
def answer (link : Exchange Packet Acknowledge) : Engine × Option Acknowledge → Session
  | (e, some ack) => { s with engine := e, link := link.answer ack }
  | (e, none) => { s with engine := e, link := link }

/-- A step. -/
def step : Action → Option Session
  | .client =>
    (s.client.step u).map fun
      | (a, none) => { s with client := a }
      | (a, some c) => { s with client := a, link := s.link.send (a.packet u c) }
  | .acknowledge =>
    s.link.receive.map fun (n, link) =>
      { s with client := s.client.ackHandler n.2, link := link }
  | .receive o =>
    s.link.take.bind fun (p, link) => (s.engine.receive o p).map (s.answer link)
  | .finishWrite =>
    s.engine.finishWrite.map fun (e, ack) => s.answer s.link (e, some ack)
  | .writer fault => (s.engine.writerStep fault).map fun e => { s with engine := e }
  | .script i =>
    (s.engine.processor.scriptStep i).map fun p => { s with engine := s.engine.withProcessor p }
  | .scriptStatus i v done =>
    (s.engine.processor.scriptStatus i v done).map fun p =>
      { s with engine := s.engine.withProcessor p }
  | .losePacket i => some { s with link := s.link.loseRequest i }
  | .loseAcknowledge i => some { s with link := s.link.loseAnswer i }

/-- The start of a session: nothing is under way, and the engine runs at most its scripts of
    the power-on. Everything else is arbitrary, the files of the engine in particular. -/
structure Initial : Prop where
  pc : s.client.pc = .start
  idle : s.link.Idle
  writing : s.engine.writing = none
  scripts : ∀ t ∈ s.engine.processor.scripts, t = .runPowerOn
  handed : s.engine.controlFile.pd.handed = []

end Session

end EW8.Update
