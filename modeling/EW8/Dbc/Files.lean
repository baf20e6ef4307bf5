import EW8.Dbc.Words

/-!
# The DBC files

What a DBC file says, and how it is written: a version, new symbols, nodes, value tables, and
messages with their signals, followed by sections that the parser reads for nothing.

* Each message of the file is handed over, in order, with its signals from the last to the first, if
  its id is of 32 bits; a file with no further sections is accepted
  (`File.messages_processDBCFile`).
* Of a number, only what is before the fraction is read; and a signal counts as unsigned if the last
  sign in its line, be it that of a factor, an offset or a limit, is a plus.
-/

namespace EW8.Dbc

open EW8.Config (Signal)
open EW8.Core EW8.Core.JsonParser EW8.Rx Peg

/-! ## Signals -/

/-- How a signal is multiplexed. -/
inductive Mux
  | none
  | multiplexor
  | multiplexed (index : Natural)

/-- As it is written after the name. -/
def Mux.bytes : Mux → List UInt8
  | none => []
  | multiplexor => chars "M" ++ chars " "
  | multiplexed index => chars "m" ++ (index.bytes ++ chars " ")

/-- The line of a signal. -/
structure SignalLine where
  name : Name
  mux : Mux
  startBit : Natural
  size : Natural
  byteOrder : Natural
  sign : Sign
  factor : Number
  offset : Number
  min : Number
  max : Number
  unit : Phrase
  receiver : Name
  receivers : List Name

namespace SignalLine

variable (n : SignalLine)

/-- From the byte order on. -/
def values : List UInt8 :=
  chars "@" ++ (n.byteOrder.bytes ++ (n.sign.bytes ++ (chars " " ++ (chars "(" ++ (n.factor.bytes ++
    (chars "," ++ (n.offset.bytes ++ (chars ")" ++ (chars " " ++ (chars "[" ++ (n.min.bytes ++
      (chars "|" ++ (n.max.bytes ++ (chars "]" ++ (chars " " ++ (n.unit.quoted ++ (chars " " ++
        (n.receiver.bytes ++ n.receivers.flatMap fun r => chars "," ++ r.bytes))))))))))))))))))

/-- The line. -/
def bytes : List UInt8 :=
  (chars " " ++ (chars "SG_" ++ (chars " " ++ (n.name.bytes ++ (chars " " ++ (n.mux.bytes ++
    (chars ":" ++ (chars " " ++ (n.startBit.bytes ++ (chars "|" ++ (n.size.bytes ++
      n.values))))))))))) ++ chars "\n"

/-- The signs in the line. -/
def signs : List Sign :=
  n.sign :: (n.factor.signs ++ n.offset.signs ++ n.min.signs ++ n.max.signs)

/-- The signal that it is read as. -/
def signal : Signal where
  name := text n.name.bytes
  startByte := .ofNat (n.startBit.value / 8)
  startBit := .ofNat (n.startBit.value % 8)
  numOfBits := .ofNat n.size.value
  sign := n.signs.getLast (List.cons_ne_nil _ _) = .plus
  factor := n.factor.value.toInt64.toFloat.toBits
  offset := n.offset.value.toInt64.toFloat.toBits
  min := n.min.value.toInt64.toFloat.toBits
  max := n.max.value.toInt64.toFloat.toBits
  valueType := .integer
  AMJsonSignalIdx := 0

end SignalLine

/-! ## Messages -/

/-- The lines of a message. -/
structure MessageLines where
  id : Natural
  name : Name
  dlc : Natural
  transmitter : Name
  signals : List SignalLine

namespace MessageLines

variable (n : MessageLines)

def bytes : List UInt8 :=
  chars "BO_" ++ (chars " " ++ (n.id.bytes ++ (chars " " ++ (n.name.bytes ++ (chars ":" ++
    (chars " " ++ (n.dlc.bytes ++ (chars " " ++ (n.transmitter.bytes ++ (chars "\n" ++
      (n.signals.flatMap SignalLine.bytes ++ chars "\n")))))))))))

/-- The message that it is read as, if its id is of 32 bits. -/
def message? : Option Message :=
  if n.id.value ≤ 0xFFFFFFFF then
    some ⟨n.id.value, text n.name.bytes, (n.signals.map SignalLine.signal).reverse⟩
  else none

end MessageLines

/-! ## Files -/

/-- The line of a value table. -/
structure TableLine where
  name : Name
  rows : List (Number × Phrase)

def rowBytes (row : Number × Phrase) : List UInt8 :=
  row.1.bytes ++ (chars " " ++ (row.2.quoted ++ chars " "))

def TableLine.bytes (n : TableLine) : List UInt8 :=
  (chars "VAL_TABLE_" ++ (chars " " ++ (n.name.bytes ++ (chars " " ++ (n.rows.flatMap rowBytes ++
    chars ";"))))) ++ chars "\n"

/-- What is before the sections that follow the messages. -/
structure File where
  version : Phrase
  symbols : List Name
  nodes : List Name
  tables : List TableLine
  messages : List MessageLines

namespace File

variable (n : File)

def versionBytes : List UInt8 :=
  (chars "VERSION" ++ (chars " " ++ n.version.quoted)) ++ chars "\n"

def symbolsBytes : List UInt8 :=
  (chars "NS_" ++ (chars " " ++ (chars ":" ++ (chars " " ++ (chars "\n" ++
    n.symbols.flatMap fun s => (chars "\t" ++ s.bytes) ++ chars "\n"))))) ++ chars "\n"

/-- There are no bit timings. -/
def timingBytes : List UInt8 :=
  (chars "BS_" ++ (chars ":" ++ chars "\n")) ++ chars "\n"

def nodesBytes : List UInt8 :=
  (chars "BU_" ++ (chars ":" ++ n.nodes.flatMap fun s => chars " " ++ s.bytes)) ++ chars "\n"

/-- The file, but for the sections that follow. -/
def bytes : List UInt8 :=
  n.versionBytes ++ (chars "\n\n" ++ (n.symbolsBytes ++ (timingBytes ++ (n.nodesBytes ++
    (n.tables.flatMap TableLine.bytes ++ (chars "\n\n" ++
      n.messages.flatMap MessageLines.bytes))))))

end File

/-- What can follow: neither a signal nor a value table. -/
structure IsNext (t : List UInt8) : Prop where
  stops : Stops " \t\r\n" t
  signal : ¬chars "SG_" <+: t
  table : ¬chars "VAL_TABLE_" <+: t

/-- What can follow the messages. -/
structure IsTail (t : List UInt8) : Prop extends IsNext t where
  message : chars "BO_" <+: t → chars "BO_TX_BU_" <+: t

end EW8.Dbc
