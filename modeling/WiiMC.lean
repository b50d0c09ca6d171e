import WiiMC.Lib.Transition
import WiiMC.Lib.Ring
import WiiMC.Lib.Bytes
import WiiMC.Lib.Wire
import WiiMC.Lib.Linked
import WiiMC.Lib.StableSort
import WiiMC.Lib.Base64
import WiiMC.Lib.Buffer
import WiiMC.Lib.Loop
import WiiMC.Lib.Program
import WiiMC.Lib.Waiting
import WiiMC.Lib.Words
import WiiMC.Cache.Vars
import WiiMC.Cache.Concurrency
import WiiMC.Cache.Refinement
import WiiMC.Cache.Serving
import WiiMC.Stream.Functions
import WiiMC.Stream.Progress
import WiiMC.Player.LowCache
import WiiMC.Player.Prefill
import WiiMC.Player.HandOver
import WiiMC.Player.PlayOrder
import WiiMC.Http.Transport
import WiiMC.Http.Reader
import WiiMC.Http.Body
import WiiMC.Http.ChunkLine
import WiiMC.Http.Grammar
import WiiMC.Http.Resolve
import WiiMC.Http.Open
import WiiMC.Http.Outcome
import WiiMC.Http.Radio
import WiiMC.Network.Stranded
import WiiMC.Dav.Device
import WiiMC.Dav.File
import WiiMC.Dav.BodyLimit
import WiiMC.Dav.Duplicates
import WiiMC.Dav.Directory
import WiiMC.Dav.Opening
import WiiMC.Dav.Playback
import WiiMC.Browser.Invariant
import WiiMC.Browser.Directory
import WiiMC.Browser.Normalise
import WiiMC.Browser.Dequeue
import WiiMC.Browser.FullPaths
import WiiMC.Browser.ParseRuns
import WiiMC.Settings.SaveFile
import WiiMC.Tls.Seed
import WiiMC.Dns.Cache
import WiiMC.Online.PlxBlocks
import WiiMC.Http.Fetch
import WiiMC.Log.Crash
import WiiMC.Log.Trim
import WiiMC.Language.Gettext
import WiiMC.Media.Navigation
import WiiMC.Gui.Wrap
import WiiMC.Audio.Output
import WiiMC.Sub.Table
