import Ircd.Collapse
import Ircd.Numnicks
import Ircd.Bdd.Bots
import Ircd.Bdd.Iterador
import Ircd.Bdd.Convergencia
import Ircd.Bdd.Biseccion
import Ircd.IPcheck.Clones
import Ircd.IPcheck.Throttle
import Ircd.Addr.Printable
import Ircd.Addr.Accepted
import Ircd.Addr.Virtual
import Ircd.Addr.Range
import Ircd.Addr.Decode
import Ircd.Parse.Split
import Ircd.Parse.Tree
import Ircd.Packet
import Ircd.Packet.Contadores
import Ircd.Hash.Names
import Ircd.Dbuf.Runs
import Ircd.Dbuf.Getmsg
import Ircd.Who.Visibles
import Ircd.Whowas.Runs
import Ircd.Watch.Runs
import Ircd.Res.Replies
import Ircd.Mask.Plain
import Ircd.Mask.Exec
import Ircd.Mask.Collapsed
import Ircd.Mask.Charset
import Ircd.Mask.Decompile
import Ircd.Mask.Subsume
import Ircd.Mask.Dotted
import Ircd.Channel.Antichain
import Ircd.Channel.Pretty
import Ircd.Channel.Keys
import Ircd.Channel.Latin
import Ircd.Channel.Invites
import Ircd.Channel.Locks
import Ircd.Channel.Names
import Ircd.Channel.Listing
import Ircd.Channel.Part
import Ircd.Channel.Sequence
import Ircd.Channel.Modes
import Ircd.Channel.Runs
import Ircd.User.Grants
import Ircd.User.Statistics
import Ircd.User.Notices
import Ircd.User.Silence
import Ircd.User.Dangling
import Ircd.User.Colors
import Ircd.Lib.Recency
import Ircd.User.Targets
import Ircd.User.Load
import Ircd.User.Canonize
import Ircd.User.Username
import Ircd.Gline.Burst
import Ircd.Gline.Kill
import Ircd.Gline.Intervals
import Ircd.Send.Broadcast
import Ircd.Conf.Runs
import Ircd.Conf.Hostname
import Ircd.Crule.Accepted
import Ircd.Crule.Free
import Ircd.Crule.Meaning
import Ircd.Bsd.ReadPacket
import Ircd.Bsd.Framing
import Ircd.Bsd.Flood
import Ircd.Bdd.Cache
import Ircd.Bdd.Vidas
import Ircd.Net.Numerics
import Ircd.Net.Cortes
import Ircd.Hash.Strhash
import Ircd.Sprintf.Vsprintf
import Ircd.Map.Dibujo
import Ircd.Ping.Cuentas
import Ircd.Auth.Respuesta
