import Vere.Ames.Ack
import Vere.Ames.Bite
import Vere.Ames.Will
import Vere.Arvo.Kick
import Vere.Clay.Clean
import Vere.Clay.Feed
import Vere.Clay.Lines
import Vere.Clay.Patch
import Vere.Dill.Turns
import Vere.Hoon.AescSpec
import Vere.Hoon.DeepSpec
import Vere.Hoon.Mink
import Vere.Hoon.QueueRun
import Vere.Hoon.Repg
import Vere.Hoon.Sort
import Vere.Io.Http
import Vere.Io.Term
import Vere.Jets.Axis
import Vere.Jets.Fish
import Vere.Jets.Fitz
import Vere.Jets.Fuse
import Vere.Jets.Join
import Vere.Jets.Look
import Vere.Jets.Lore
import Vere.Jets.Loss
import Vere.Jets.NestMemo
import Vere.Jets.Parse
import Vere.Jets.Rub
import Vere.Jets.Same
import Vere.Log.Kafk
import Vere.Log.Length
import Vere.Log.Order
import Vere.Log.Pull
import Vere.Log.Restart
import Vere.Loom.Trip
import Vere.Mem.CashRun
import Vere.Mem.Store
import Vere.Nock.Slog
import Vere.Nock.Molt
import Vere.Nock.Weak
import Vere.Raft.Frame
import Vere.Raft.Wild
import Vere.Ut.Burn
import Vere.Zuse.Base64
import Vere.Zuse.CruaSpec
import Vere.Zuse.JsonSpec
import Vere.Zuse.Leap
import Vere.Zuse.Url
import Vere.Zuse.XmlSpec
import Vere.Hoon.Name
