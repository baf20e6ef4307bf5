import EW8.Lib.Transition
import EW8.Can.Engine
import EW8.Can.Api
import EW8.Boot.Environment
import EW8.Boot.Partitions
import EW8.Boot.Cache
import EW8.Boot.Installs
import EW8.Boot.Rollback
import EW8.Update.Session
import EW8.Update.Chunks
import EW8.Update.Busy
import EW8.Update.Waiting
import EW8.Update.Storage
import EW8.Update.PowerLoss
import EW8.Update.Effects
import EW8.Update.Indices
import EW8.Update.Verification
import EW8.Update.DataPackets
import EW8.Update.Removal
import EW8.Update.Prefix
import EW8.Update.FaultFree
import EW8.Can.Leftovers
import EW8.Update.Independence
import EW8.Display.GraphicItem
import EW8.Display.FixedArguments
import EW8.Display.ValueTables
import EW8.Display.Supplements
import EW8.Config.Model
import EW8.Config.CachedStart
import EW8.Config.Storage
import EW8.Display.Enablers
import EW8.Tree.Activation
import EW8.Tree.Visibility
import EW8.Update.GivingUp
import EW8.Update.Installation
import EW8.Rx.Gate
import EW8.Rx.Reply
import EW8.Rx.Disconnection
import EW8.Update.HandOff
import EW8.Update.RoundTrip
import EW8.Update.Layout
import EW8.Update.VersionChange
import EW8.Update.VersionAnswer
import EW8.Rx.Registration
import EW8.Display.IntArguments
import EW8.Core.Glob
import EW8.Core.Signal
import EW8.Lib.SortedMap
import EW8.Core.Text
import EW8.Core.Settings
import EW8.Display.StringArguments
import EW8.Lib.Binary64
import EW8.Display.Smoothing
import EW8.Display.TimedSmoothing
import EW8.Config.SaveFile
import EW8.Core.JsonValue
import EW8.Display.SetValues
import EW8.Lib.Reader
import EW8.Core.JsonParser
import EW8.Core.JsonGrammar
import EW8.Core.JsonParserSound
import EW8.Core.JsonParserComplete
import EW8.Core.JsonAcceptance
import EW8.Core.JsonSerializer
import EW8.Core.JsonRoundTrip
import EW8.Lib.Navigation
import EW8.Core.Path
import EW8.Lib.Blocks
import EW8.Update.Sha256Object
import EW8.Lib.Crc
import EW8.Can.Damage
import EW8.Loader.Hamming
import EW8.Lib.Peg
import EW8.Dbc.Grammar
import EW8.Dbc.Parser
import EW8.Dbc.Words
import EW8.Dbc.Files
import EW8.Dbc.Reading
import EW8.Dbc.Extracted
import EW8.Display.BrightnessControl
import EW8.Core.Timer
