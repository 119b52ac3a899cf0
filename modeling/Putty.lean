import Putty.Ccp.Poly1305
import Putty.Windows.MapChain
import Putty.Windows.Closing
import Putty.Windows.WinNet
import Putty.Windows.Timing
import Putty.Tree.Code
import Putty.Lib.Owns
import Putty.Ssh2.GlobalRequests
import Putty.Ssh2.ChannelDiscipline
import Putty.Ssh2.ChannelOpen
import Putty.Tree.Find
import Putty.Ssh2.Kexinit
import Putty.Share.Channels
import Putty.Share.Zombies
import Putty.Share.Isolation
import Putty.Share.Requests
import Putty.Share.Receive
import Putty.Share.Cleanup
import Putty.Share.Forwardings
import Putty.Zlib.Splitting
import Putty.Zlib.Window
import Putty.Ssh2.Bpp
import Putty.Terminal.Paste
import Putty.Terminal.Termline
import Putty.Terminal.Screen
import Putty.Terminal.Erase
import Putty.Terminal.Resize
import Putty.Keys.Userkey
import Putty.Sftp.Reassembly
import Putty.Scp.SourceRuns
import Putty.Scp.SinkRuns
import Putty.Pscp.Targets
import Putty.Telnet.Peers
import Putty.Telnet.Streams
import Putty.X11.Gate
import Putty.Ssh1.Delivery
import Putty.Pscp.Whole
import Putty.Pageant.Conn
import Putty.Ssh2.ChannelIds
import Putty.Share.UnusedId
import Putty.Share.Chunking
import Putty.Tree.OutOfRange
import Putty.Mpint.Words
import Putty.Mpint.Mul
import Putty.Mpint.Integers
import Putty.Mpint.Bytes
import Putty.Mpint.Wire
import Putty.Mpint.Digits
import Putty.Mpint.Hex
import Putty.Mpint.Decimal
import Putty.Mpint.Residue
import Putty.Mpint.Bezout
import Putty.Sshcommon.TtyModes
import Putty.Utils.BufchainRuns
import Putty.Lib.Glob
import Putty.Wildcard.Code
import Putty.Wildcard.Language
import Putty.Wildcard.Unescape
import Putty.Lib.Flip
import Putty.Bidi.Reorder
import Putty.Bidi.Kept
import Putty.Share.Rejections
import Putty.Lib.Ring
import Putty.Sshcommon.PacketQueue
import Putty.Sshcommon.QueueContents
import Putty.Sshcommon.QueueRuns
import Putty.Ssh2.KexinitSafety
import Putty.Lib.Leads
import Putty.Utils.Utf8
import Putty.Terminal.Utf8
import Putty.Terminal.Input
import Putty.Terminal.Print
import Putty.Terminal.Copy
import Putty.Pscp.Records
import Putty.Rsa.Ssh1
import Putty.Rsa.Oaep
import Putty.Bidi.Numbers
import Putty.Keys.Pubfile
import Putty.Rsa.KeyFile
import Putty.Windows.Argv
import Putty.Zlib.HashChains
import Putty.Ssh1.Crcda
import Putty.X11.Replay
import Putty.Proxy.Exclude
import Putty.Zlib.Huffman
