import Sfslite.Async.TimecbCheck
import Sfslite.Async.AiobufRun
import Sfslite.Arpc.XdrBounds
import Sfslite.Arpc.AsrvLifetime
import Sfslite.Arpc.AsrvEof
import Sfslite.Crypt.PadEncrypt
import Sfslite.Crypt.PadSign
import Sfslite.Async.SuioCallbacks
import Sfslite.Arpc.AxprtEof
import Sfslite.Crypt.AxprtCryptDelivery
import Sfslite.Arpc.AxprtUnixDelivery
import Sfslite.Async.SuioQueue
import Sfslite.Crypt.SrpAgree
import Sfslite.Crypt.SchnorrSign
import Sfslite.Crypt.OcbOffsets
import Sfslite.Sfsmisc.Nfstrans
import Sfslite.Sfsmisc.SfspathRoundTrip
import Sfslite.Libtame.BlockRun
import Sfslite.Async.BackoffRun
import Sfslite.Rtftp.GetRun
import Sfslite.Crypt.Seqno
import Sfslite.Crypt.MpzXorBits
import Sfslite.Crypt.Montgom
import Sfslite.Crypt.RandomPrime
import Sfslite.Safeptr.PtrRun
import Sfslite.Safeptr.BigArenaRun
import Sfslite.Safeptr.Freemap
import Sfslite.Crypt.Rsa
import Sfslite.Async.ItreeLookup
import Sfslite.Crypt.Sha1oracle
import Sfslite.Crypt.UmacUpdate
import Sfslite.Crypt.Poly
import Sfslite.Crypt.RabinWindow
import Sfslite.Arpc.AclntFail
import Sfslite.Arpc.AclntSend
import Sfslite.Async.AiosReadline
import Sfslite.Async.CbufResize
import Sfslite.Async.BitvecScan
import Sfslite.Async.Rctailq
import Sfslite.Async.WideStr
import Sfslite.Async.Utf8Fix
import Sfslite.Async.StrInt
import Sfslite.Async.ConftabInt
import Sfslite.Async.ParseargsEnd
import Sfslite.Async.VecRun
import Sfslite.Async.Rctree
import Sfslite.Arpc.Acallrpc
import Sfslite.Arpc.AxprtHold
import Sfslite.Async.Dnssock
import Sfslite.Async.Resend
import Sfslite.Async.DnsreqRun
import Sfslite.Async.TcpconnectSrv
import Sfslite.Libtame.TimedAcquire
import Sfslite.Libtame.ConnectorsRun
import Sfslite.Libtame.Pipeline
import Sfslite.Libtame.Pipeline3
import Sfslite.Sfsmisc.Attrcache
import Sfslite.Sfsmisc.RexchanRun
import Sfslite.Sfsmisc.ClosesimRun
import Sfslite.Async.AiofhRun
import Sfslite.Sfsmisc.Sesskey
import Sfslite.Rtftp.ReadRun
import Sfslite.Crypt.RabinMessages
import Sfslite.Async.ItreeDepth
