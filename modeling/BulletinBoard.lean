import BulletinBoard.Store
import BulletinBoard.Rescan
import BulletinBoard.Numbering
import BulletinBoard.Housekeeping
import BulletinBoard.ScanEnds
import BulletinBoard.AbsentNumber
import BulletinBoard.RequestLoop
import BulletinBoard.Coordinator
import BulletinBoard.PeerOperations
import BulletinBoard.Replacing
import BulletinBoard.AbortedWrite
import BulletinBoard.StaleUndo
import BulletinBoard.Sessions
import BulletinBoard.ErrorAnswers
import BulletinBoard.SequentialNumbers
import BulletinBoard.UserNames
import BulletinBoard.WriteRead
import BulletinBoard.ReplaceMessage
import BulletinBoard.Replication
import BulletinBoard.ReplaceReplication
import BulletinBoard.LastLine
import BulletinBoard.CommitForm
import BulletinBoard.TwoServers
import BulletinBoard.ReadWriteLock
import BulletinBoard.Team
import BulletinBoard.Teams
import BulletinBoard.AcceptLoop
import BulletinBoard.Conformance
import BulletinBoard.Votes
import BulletinBoard.ReplyPieces
import BulletinBoard.UndoReplace
import BulletinBoard.NumberRange
import BulletinBoard.ReservationList
import BulletinBoard.BufferSizes
import BulletinBoard.ClientList
import BulletinBoard.ThreeScans
import BulletinBoard.WorkQueueCalls
import BulletinBoard.TokenReference
import BulletinBoard.Config
import BulletinBoard.ConfigPieces
import BulletinBoard.PeerTable
import BulletinBoard.ConfigRun
import BulletinBoard.Restart
import BulletinBoard.Precedence
import BulletinBoard.PlainConfig
import BulletinBoard.ReadWriteReturns
import BulletinBoard.ScanRound
import BulletinBoard.FileAccess
import BulletinBoard.TeamWork
import BulletinBoard.TeamEnds
import BulletinBoard.Cluster
import BulletinBoard.Bulletin
import BulletinBoard.LoneServer
import BulletinBoard.ShutdownWalk
