import AllJoyn.Peer.Serial
import AllJoyn.Message.Deliver
import AllJoyn.Names.Owners
import AllJoyn.Policy.Decision
import AllJoyn.Wire.Clone
import AllJoyn.Wire.Unmarshal
import AllJoyn.Wire.MakeSignature
import AllJoyn.Policy.RoundTrip
import AllJoyn.Policy.Import
import AllJoyn.Policy.Wildcard
import AllJoyn.Policy.Properties
import AllJoyn.Ardp.Negotiate
import AllJoyn.Ardp.Rto
import AllJoyn.Sessionless.Names
import AllJoyn.Sessionless.Join
import AllJoyn.Sessionless.Advertise
import AllJoyn.Rules.Table
import AllJoyn.Crypto.BigNum.ModExpCorrect
import AllJoyn.Crypto.BigNum.ModInv
import AllJoyn.Crypto.Asn1.RoundTrip
import AllJoyn.Mdns.RoundTrip
import AllJoyn.Slap.Delivery
import AllJoyn.Slap.ReadPacket
import AllJoyn.ThinClient.AccessOrder
import AllJoyn.Keys.Shared
import AllJoyn.Keys.Persist
import AllJoyn.Keys.Waiting
import AllJoyn.Lighting.RoundTrip
import AllJoyn.Lighting.Exchange
import AllJoyn.ThinClient.CcmCorrect
import AllJoyn.ThinClient.MarshalCorrect
import AllJoyn.Message.Read
import AllJoyn.Message.Receive
import AllJoyn.Nvram.Map
import AllJoyn.ThinClient.SerialTx
