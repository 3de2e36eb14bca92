import MiniCoin.ChainLimits
import MiniCoin.Overdrafts
import MiniCoin.Sha256Lanes

/-!
# Chains that are written to a peer

A node answers the request for its chain with one line, which the peer reads into a buffer of
fixed size. So a peer with a shorter chain ends with the node's chain exactly if the line fits.
An honest miner whose blocks are full gets beyond that with 266 blocks: the table lists the
times and the digests of such blocks, and their hashes are checked in lanes.
-/

namespace MiniCoin

open ByteStrings Sha2

variable {ssl : OpenSSL}

/-! ## The answer to a request -/

/-- The bytes that `send_message` writes when a node answers
`MSG_REQUEST_CHAIN`. -/
def chainAnswer (send : SendPattern) (calls : Nat) (node : Node ssl) (fd : Nat) : List UInt8 :=
  (sendMessages send calls ((handleMessage node fd Message.requestChain.line).2.map
    (·.message.text))).flatMap Sent.bytes

/-- A mined chain is sent as it is. -/
theorem chainAnswer_eq (send : SendPattern) (accepting : Accepting send) (calls : Nat) (node : Node ssl)
    (fd : Nat) (mined : Mined ssl node.chain) :
    chainAnswer send calls node fd = (Message.chainResponse node.chain).text := by
  have answered := handleMessage_line node fd .requestChain trivial
  have sent := sendMessage_plain send accepting calls _ mined.plain
  simp [chainAnswer, answered, react, sendMessages, sent]

/-! ## A chain of full blocks -/

/-- The address of the second wallet, as a user types it. -/
def secondOwner : Token :=
  ⟨(stubWallet 1).address.bytes, by decide +kernel, by decide +kernel, by decide +kernel⟩

/-- What the owner of the first wallet pays to the second one, again and
again. -/
def payment : Tx where
  sender := (stubWallet 0).address
  receiver := (stubWallet 1).address
  amount := 1
  fee := 1
  signature := CText.ofBytes (List.replicate 128 48)
  txHash := CText.ofBytes (ascii "d4719a37f93cf482ec6059a3f9e392b3a6ae0af8e8fc0b5c5fda4cd3de011951")

/-- What the miner of nine payments gets. -/
def fullReward : Tx where
  sender := coinbaseAddr
  receiver := (stubWallet 0).address
  amount := 59
  fee := 0
  signature := CText.ofBytes (ascii "COINBASE")
  txHash := CText.ofBytes (ascii "865a407172eee1db0667e708c9daf10060c02c1bba2cce230a54db7941add915")

/-- The transactions of a full block. -/
def fullTxs : List Tx := fullReward :: List.replicate 9 payment

/-- The coinbase that `do_mine` makes for nine payments of this kind. -/
theorem fullReward_eq : coinbaseTx sha256 (stubWallet 0).address (List.replicate 9 payment) = fullReward := by
  decide +kernel

/-- Index and time of a full block that is found at once, the digest in the
block before it and its own. -/
structure Stamp where
  index : Nat
  time : Nat
  prev : Nat
  digest : Nat
  deriving DecidableEq

namespace Stamp

/-- The block with this stamp. -/
def block (stamp : Stamp) : Block where
  index := stamp.index.toUInt32
  timestamp := Int64.ofNat stamp.time
  transactions := fillSlots fullTxs
  txCount := 10
  prevHash := hexDigest (digestBytes stamp.prev)
  nonce := 0
  hash := hexDigest (digestBytes stamp.digest)

/-- The block has the hash that it stores, and the hash meets the target. -/
def Found (stamp : Stamp) : Prop :=
  blockComputeHash sha256 stamp.block = stamp.block.hash ∧ meetsTarget stamp.block.hash = true

/-- Each block of the chain carries the same ten transactions. -/
@[simp] theorem block_listed (stamp : Stamp) : stamp.block.listed = fullTxs := by
  have count : stamp.block.count = fullTxs.length := rfl
  rw [Block.listed, count]
  exact fillSlots_take fullTxs (by decide)

end Stamp

/-- The stamps of blocks on a block with this index and digest. -/
def stampsFrom : Nat → Nat → List (Nat × Nat) → List Stamp
  | _, _, [] => []
  | index, prev, (time, digest) :: rest =>
    ⟨index + 1, time, prev, digest⟩ :: stampsFrom (index + 1) digest rest

/-- The table gives one stamp for each of its rows. -/
theorem stampsFrom_length (index prev : Nat) (table : List (Nat × Nat)) :
    (stampsFrom index prev table).length = table.length := by
  induction table generalizing index prev with
  | nil => rfl
  | cons row rest ih => simp [stampsFrom, ih]

/-- The digest of the first block. -/
def firstDigest : Nat := 0xa199e8926876787608023e07d275f1f43d649de05ca08ffc75d46dec0035a52c

/-- Times and digests of full blocks on the first one. -/
def stampTable : List (Nat × Nat) := [
  (10202, 0xdb1e56984aa4405b734fed59a96ecfa229dc4a2839290538b80512d700d614ab),
  (10240, 0x6a95ccc5038b5dc8360078596d5b78fb33ec4e2e462d771d9a5d09c500c0a421),
  (10273, 0x42a80773eda9737acdf1cccb626387d173d6db241829de9846d4ca6e00a8f8a7),
  (10285, 0xde0cdc6660b3baa380202c4f021b2947bc239ae3e87d5b88badae9480089f582),
  (10423, 0x3ce0fa54a6066e616e520c30bee2c72fba9b5781d98004a09fad76f50051749e),
  (10550, 0x10eae8ba0f79b0a78807ea9c02ad3ada353a74e9d59aaeb5dec275190042789f),
  (10658, 0x0a869f98c42478a9d96c39d9adee098656bac84c46da424f748b0762008c4ddd),
  (10745, 0x410f8cdcb2f9772fae7741b2fe2b4d25bf673c9456ae463ad6324854000f7678),
  (11502, 0x1769e0d58d19d556d30c23704a91aed85c81465435acdeb5380b5da900208351),
  (11524, 0xccfd9480176d0dab8f5aba4990cbf17c0d764b779fda6d23aae58f8b006a47b6),
  (11665, 0xca715a13231d4cb2e7ca4166640276688a25370c40e2dcac44ce60f800363d35),
  (11776, 0xb12dab8acad026933c9d8c2265930ef30ff1ba5219bb07437dd8dcdb006b7d2a),
  (11851, 0x41078a6b88c652f863da2b0460b4ab8429b15a165dfd3c6ab94235ec0040022f),
  (11997, 0xaf1239bbe0e9598385e369bc7b2d3695a768b8b4a952661e84934b9300549471),
  (12248, 0xe1afb03478e27a42dba515a1b6226caffeaf9314c7e4879b6e7ce6260057ceee),
  (13104, 0x9c4932b67a4db3f8364431335997dcaf984c5a295bf018e7cc4c49230046d29f),
  (13241, 0x7776767c503c993eb2ee90a9e8519b71429185052b5bf4de4293d67400d8dd5e),
  (13474, 0x3159eb18e7c7b338f9c69d814ce2f1ad22636b255febe5514d1dac18008edc69),
  (13566, 0x8670f089304fe6b065f75b2a0d910bcc274c8193399b0f03dbb05d6500c493e3),
  (13725, 0x129f1d0f39fd810bf0d212bb6f5338910f50737639d66e96099d9e78002c50d0),
  (13773, 0xcdc11503c8a6b471388499f031161fb5fa70cccc2da3b2d4e72e34d900834ced),
  (13822, 0x4b81f6279fcd9a53f0dcaa45fefb080f2dafad77a0815d5015be8eee00abe649),
  (14215, 0xea2f305a77d7bad876db44df1af08d350dcf320db1919179a4708953005e4f35),
  (15244, 0x2b6cfa5d3675db46ee8bf4251e5414007f0d046451804e3851fa544b00c51ad1),
  (15458, 0x4536357d237af4a54350985043d2e749f103c59db63ddbe6075ecde7000084ce),
  (16329, 0xfada7bf1a4e0b9a8d81d1742237de6e7bec3b328469747aa0992fc8600005472),
  (16444, 0xb1c4ccfafdf73f9fe5729c55a62075e76125e477cfb01e71df2b1f4b0042b572),
  (16586, 0xdf47f9fecb5d813c4fdb57d6b2b2618c8c5a3b062252c659c7061b5900f479d3),
  (16951, 0xf6dcd13633eedc77cac966fabe9e4003afee7357c559fd6d1b76363200b84e04),
  (17189, 0x325e26dc486b5bce895fa837a30c442d0d4d2b7ce82cbd57930d41840064de97),
  (17312, 0x58a6e7f20b1d71bf9df899d8decbbd28caa8838135dadafb3a0205e900060a07),
  (17388, 0x496caa330a13f82297a5b406e8e50ae904a9d3313688739d5785678600f2f604),
  (17569, 0x71748b12f7241f56b54a0ff653ababfe6d713e4f011b95d19767409600cd1892),
  (18238, 0xde71c6fd4280ee4258505a47a654d4bb735b9488112e7022b7aef831006bcfc5),
  (19283, 0xa9fa9f1a9520e93536079967edc5883c3728d2a6ac89f7843da5ef1a00b2e5c5),
  (19585, 0x15b28d0154a4e2f6120b3684ce8da89c052ca88d6350ffa4d2e824bc00f5e4c0),
  (19618, 0x217d5e199f0d14ffb145ee3ca93a17528325238b0486bddddd4fca0400f424da),
  (19709, 0x6f6fa8cb6f5680d30623f7a6cb2b40202e71ec7b3800d56df8db0a1100ab3545),
  (19948, 0x4676508aac26f1b9e39151b3b0b6ea79c011c3f7dd1b65bb935a9c9b007b3c75),
  (20682, 0x1950bc7773089af9da3ad407cecdeb3aa17f6229026d872cf5de3f1400036b51),
  (20868, 0x380e66233cb4e1a5eb97f0713522bd73cac949b522a97c25fe1ba4d20075d061),
  (21122, 0x97bd4536b54de00de3ea843ad53d44cc40db19c4811078c368e612a200d74bed),
  (21362, 0x7c1fc03b63ad9aaea92ebd449ae22b26961ebdc4f60c57d8a166397c008b2f04),
  (21383, 0x6b203c57352859250969b440993e2d9f0a9230e5b463cb70d7d84416002998d2),
  (21625, 0xc2ceba73d913aa25a90c4a71710075fb6a5e2f4aa49384c63acd998a003e3ca7),
  (21737, 0x1be610b2b2df4a0ae03307078696de44a15205c896e7ee553d88104600a2f800),
  (21776, 0x9058b0f56ef13250c92b4f20a7620d73f6e13b1ed55f3fb856b581dd004b7aa0),
  (23184, 0x5c25c6c9c66d6fafbcad3a937374236a4e76f033eb2258e8a0c88f2a00260eb0),
  (23263, 0x89306c1884875fad3920fbf03fbc33c2004fa545ec87e2092016f8f10072fbd8),
  (23277, 0xb325bfbdae223437c7af1fed4712d8290c4b8ec79f98e4c431ffce2300a0a62e),
  (23349, 0xefe68d46fe46f38584544790364c250766acf43645ba9f7d563e8e6000262277),
  (24167, 0x9c4a5b3988eb165e2b662a48a319fd98ac9a8258f0929dd0b8017e07009a4641),
  (24395, 0xc29fd232e96e69961a917d81af7e07ad99af55943b44c03a2381f0b4006fa8e4),
  (24565, 0x48c460f1b8544967d6a177ca05aa91eaa8bf31b6d7c087ba6e40fcb300c00957),
  (24721, 0x77cdadde7d21e888daa9dd6823ba4820b840feb8327dc64be8dca85900fcd7aa),
  (24775, 0x36f186f62c6fc61ddd55460995ffc6d071fb2452d569583dbd926d02003b8c7a),
  (24835, 0x731fba9f8161b93dab05223d315b38f583ef60ea7139c4d1320ac61c00620f59),
  (24911, 0xdd08cf6dc3cfa529a3a7ea7dbf32c61494aa0c2525e357df35eaaa5e002fb1e6),
  (24955, 0xe02db521ed82fd1d6bb39a15ef45008ec89fb0b63b7e8773e3c5427500341f64),
  (25189, 0x5103f53640c9554836ae639cfcf1571fa11a4b2743d2a18a1b8891e900b73e49),
  (25226, 0x82d6ff13616e62047e91b5119b30f16e7428fb81ca8a634baecf6d2600a0c5d1),
  (26032, 0x80689eb21ecbb7b41eaf9d0840e576aecb77c996761859f623f28cf800a33227),
  (27065, 0xfcdb869a9cfd9fa85d26c91f6294b81c3b5e9f34a39c168bfcb1d7e600f3fe73),
  (27124, 0xc9cf6a488de22e8fc57f7494c0e34ffce8f72569eadb678456cbd77f00107de7),
  (27263, 0x3dded1818c65f220f99d3d447d051ecf3a3b606c4cbebb87106a74a5003a9cb2),
  (27648, 0xbd0cec9ae714aec8eac6a67c7bcf54581c71029b782482477ccca7bb00ac2dde),
  (27818, 0xb75d6264dff92358fdae813e87e2065ffde6bf0dff172cae58f4634e0087efb1),
  (27826, 0x9a4d6ca034cfe98ee2de6c06334281914fc0bfa143e975bf79b566fa0048f9f1),
  (27991, 0x2ff38a84d666300c1b154ebb9b6f6830ae9c0fb92f7320c1764cb72300c0e931),
  (28026, 0x660d363306663e7729e8bbf48e0cccf80d5cf461c23903301a6dcc0c0014c921),
  (28492, 0xdd5151d3cbb819a58c815ac5d8900a795ad8bcd4015d566ea6f8fe2700ddb7c2),
  (28928, 0x013cb307111bc4424006ebdd6cafd24f1d949835bdddcc0c52c595d300aa466f),
  (29109, 0xb4ceb8973b96e8fed781a030f49f7f11118c136c0e94c114c96561460067a0ed),
  (29269, 0x0eb37bc4005c3e615db163f5a514f550e43cd7ff85f521d05cdf57b600bdd9b4),
  (29288, 0xf05a95a8b276c1f341eda173c0b23db8bacea69fd29e6392a0bd8a74009cd7ee),
  (29448, 0xeedf527e3b6c8fddb66f30c4e6a9e81d206976603b3f1d6a69e6455b008cebc4),
  (29509, 0xf59d565fd0c4a0a826a7a598b6f359e1072517621f760b44e5657ade0094b636),
  (29516, 0xdfc7ae14209ca92be495ea51d095877779164f9b0fbf7e881d7dc7fa00e68344),
  (29651, 0x5f19c32c824c3b98e361c86e5c1b2c4e0f4bd07734194d0690dc6edf005967e6),
  (29736, 0x9b4dc64c1ca50f32dad876b0bc3b5efbdee10f8f6fd54f04f4181b4b003ec90b),
  (30062, 0x1c7448f37cdd64df386cde6c2fbe0a3596d8aa9f230c758fe0cb2f0e004618dd),
  (30206, 0x364b016b6a6747ac8ce7ba70e67d0efec90794d480423d513c98a31300877fae),
  (30264, 0x7493ecb8ec65f19558feb5cd535109335d530e3262b98c9a21dabb980030e190),
  (30354, 0x6547eb651d01e0958b19e6f253370f3163e1e0d026058dbea70554d0008acdf7),
  (30929, 0x853aa09eda11c73d34aaeb8aa4c7fb12d91317199a5833feae18536800d98f01),
  (30992, 0xf9ffc0c0f66d886ae92def58b7799027568c4b5e4be3981eb543e9be002c67b7),
  (31107, 0x9f3f332ecae4734b8b4b2a09408f7ab3c97750f5beed7f9f2d4ee7b200b8b351),
  (31196, 0x0042c94e42020a1cd59f62334d55c5459d5423328aa0d5f6da74993e001132c8),
  (31236, 0xfae9347013aff7a8ab8ebc9cc5f607cdaa5b42616ca6772232587dc10007d26c),
  (31301, 0x71d13adfd88197b5f4ad8ad8bfe903928fe1bdb81a5d63a255382c9200a30bb2),
  (31495, 0x4c9b7151dc770a154836f308281da972097dd782e5a2c4e6fc3be310002e6768),
  (31543, 0xed044d2fde36ec127472509a766f09656b41dae9e8d5d2fea7fbf5a7009727f1),
  (31860, 0xa10a4b77f3fc10f91dc6b32095755d77b73ee6b89500c41853f4509800b9f7a5),
  (31934, 0x158cfd8cc9e136d0e0b60862a81921aa46b02acffc9f15efda88f48300b2126a),
  (32039, 0x849b76597670d907f6c3703f43ae87cbc411b90ed5aa41a0bdc6dc4d00dd3bbb),
  (32064, 0xa22a5ca0d1deb1c1547281579bb8b9c027f94bbd861b591d152d0bd100d1292c),
  (32747, 0x7648db24c048b4688a8af29647ee4d8e4d7501c5a8e5849973b5f5bf00d3b91a),
  (32979, 0xa6b8f71e322935c438306b11ee029180a9d48e63eac9bee333595cd900d5c2da),
  (33253, 0x2a6ab0b9a8876376aca54543110b97e2e56d82da340d7b8f343a40d4006388b4),
  (33620, 0x21662b824b90b296f0fa442bc3642785ed89bc53ab70fc73e1b3806a00f42415),
  (33825, 0xb6b2030edd04040b9a782232c13c143279b770151ca55193370898f00062029c),
  (33899, 0xd159293e41b108673646aff680651fa3be97d25659a1774608265d88005d9bbc),
  (33901, 0x60dc6b09657336c7a0f965431a1145fae933cf2579f4f41b3053dd6e0087ea4d),
  (34044, 0x33830bf66c7d8ac83831fc8d3ca93670a278e160157c656aa1ad252e00bef0fd),
  (34063, 0x0fb0be3eab0900449e60224a0d57ea6fa413419ed42ef43e87ed24ae00754645),
  (34101, 0x8e63a047df4d2bde2226b09efddf711dc4bac8c32f6bedc8469c50440059d6a3),
  (34143, 0x6ee03b7e5d021f91f692aa6a9e976bf81cc518c6e752d5b87a20db3600c9bf82),
  (34274, 0xfdff3317226892f13bd3829dc41d77888fee834b6c7d3f013a31c6ce0038e46c),
  (34288, 0x67531b7110dc842768fe6444b0c95dd2a0b1aae55f6c1b6b197233f400aa7e1c),
  (34962, 0x02d390b957d9a53eefd3bebd18067c2d688b16efdfdbc63ed693458e005f3854),
  (35085, 0x3299aaf1d86f18ce4a30adda07d8466f6f55bc69f8dcdf4622a0260a00a396df),
  (35156, 0x17df8b8db98cb0cc52c1b0cdbb033ca96250edf62564be7113779861006f522a),
  (35446, 0x26ea29a852f01c5dc9dca0e862f253d4dec24a331c7612df92534b23002bda58),
  (35502, 0xdbd0eade63c934209cd0ddedcb45b4e4c7b017dd571a7d49c3f3c3b80002bc74),
  (35648, 0xdc2ba624f9289662a555aaabc95fcd4d4ae3d568e96523dc7931de1100f29973),
  (35860, 0x6343da358c36ff80466c011b557eafe7f55510009bc3711f6ae276530040eba3),
  (36042, 0xa3b115accfb1bd9eb58ff89a2681294d6cc50f56664748ce8328c0df007d7de2),
  (36283, 0x7b88158c8a7d3a40dbecac5fe306a000356d8b09530538fb344a63a200d67d77),
  (37571, 0x988edc5b00412b3592e5250c287371c256062e63013a16dceef31cc900578e6a),
  (37824, 0x61f2cbe0d0eef2366c5a9fb4fdee18bfe2ed64be71001e9f4bde8a91000c72df),
  (37874, 0xc574425a36b77b1127e7320b1d216304ba93bd3ab49a5df5ac5b33b600d8d409),
  (37950, 0xdb69847f91a16aae3a3399628ed7d818927e13a3bba2ae6ffd59048700614e63),
  (38154, 0xc249b9bc1b683f5c1f1ec901b2c8b6e4e6c3feb8058302c530eed55300f7e161),
  (38364, 0xf9f5a0f2b7494d291424968b1d2e8037cb20ebcab5e44207e5f0821d0018ec35),
  (38520, 0xa92c5d01c8aff717422cab1099993405098b85cf71b0cc6f4ec6d0bc0062a59c),
  (39125, 0x458280730011a1cdea903656e4acd50a87f20955a8c7abf1c0aea71d0069866b),
  (39512, 0x72ca7d138a5d346690e7dadb31b19cfa44279e63e850a7083ec5ad50004615ec),
  (40112, 0xd92452208dc1b86b7407082302d5ac9efbc502bf3246dee061e6ef8600324537),
  (40134, 0xfc974c166d1dd71a4a2a0c7c8477fa7e3cef2ef12de026e95dca440700412a35),
  (40284, 0x61c0aa5813b103e4b244ddaf6e1edcfda3a2d2be977ee2476aaf9270005c11eb),
  (40382, 0x521bc6f891967ba6a11d00756ce768f853ab44c48a0723968c74d509007928b1),
  (40807, 0xfb128a932f07f49857e267743d241c94502a31f4652291b48fa3374e0080ba95),
  (41354, 0x915d03dfab9fe754a199a5b8283f01ba0d5fffbf9c22b654dfc48cf000c10764),
  (41658, 0xff350d22ccd63f8c47b863885c601b4dd36b4e8905e2bc1dafd753e300b2d2fd),
  (42163, 0x031d94b112d45b971dddc87afc1ae260875b930391d2f85907e1432500ac4a65),
  (42217, 0xec0fb725becbbbeeb8bdb4ac5e1d0e871a4ebcbf6414f3d305fa5e2d00763f25),
  (42404, 0x2764461e477aa9fdedff87ff7c8a386b28083a6cfcdad2d5db3990650017c646),
  (42729, 0x0d7bd197e91cb4d3b26a3fd65eaeb565e72b6b690631f7a0b2ccb63f005ab328),
  (42879, 0x30a3f0c32d51024c9395e2ffcfbbce96d6beb4969b911eed5b69ac3c008667eb),
  (42990, 0xebf25eeccadf2fef517f85d444ea07bc11ec9ade4c8e23edb9623817008a6c7e),
  (43777, 0x1097e50ee94cbd9c8a75659a5349bf43824eb8caa9f418ac498a3cdb0025fc4d),
  (43925, 0x1ddc612e784b9e1c334d9c003cddf339a25bc786af5002fcac2b1a00003ed122),
  (43953, 0x9ec31e3d21388528de6a2af8a9a29c9740db3261cff6c265fdd98bb100268857),
  (44736, 0x1c85c2cba58e6213141c7b073adb1b7e07e73dc53503206afaf35f4100c7a520),
  (45038, 0x1ca0f7935f3cc2196fe38350b60afa1ca15477e618fcdc19cd50d24e0094b067),
  (45198, 0x60816e0e70a74552115bf11d1505773f22a1714ab4277953bbef45db00b7e7db),
  (45261, 0x1f5c7535b6d6de76093dbef1b6ad736c95916fe27587be0cfaf659ff005ffe16),
  (45457, 0x9dfacd4e83b23d95ea76514d01cc59446250315c4bb364fab563da0b0069ae3d),
  (45909, 0xece5162d7464c10d781460e05f9a64fa647af440d9319055761442cc000b2cc0),
  (45984, 0x4887304ddfee2d352bee5dd1d7c39f7ea97b867cf9a15be561852f140041a5e0),
  (46585, 0x3b3d08558fc641c75caa7e52e8b148f246ca3285ac920dad0e48bb8f0014f40a),
  (46660, 0xc0b7a198ff8608d608a4d40c2265097cdcc3a83081cbe1209ba4748f00a51cd9),
  (46722, 0xd40eac39d6c32afb5396103208a7e1b84ac92a9fe5eb69a6e735628800aa4d15),
  (46808, 0x744cbd8b09d8308124495d4b0a6b36c914970b05be5105f56c35ea170053ec3f),
  (46884, 0xf4d9d155578869a540b30c977fd1f19fde658f3a73f00bae22b9b618007d091f),
  (47107, 0x90acf133b29469f4f0985734f500600c1b7156d647ceee09abd37c700019d8e1),
  (47510, 0x7c903d33917eb698958b975e9162c211280df81955a0dc5bb0ba6ec500e43e7f),
  (47567, 0x2b0445f9623cd1f709bec8b48b7b7c95838fdec0e7770870e05ec3c300c48b83),
  (47888, 0x675223adf0c6861cd6482eac1241161aa0e334f1d89b4ac45470f14c002c1707),
  (48187, 0x1097bc234d83b680426b14207f3cf983ebab407875eff76d51c69871009cd7d8),
  (48536, 0xec4e552850be531836adf673efeedb19ed8dedbd98aa0826449f674000ba6811),
  (48821, 0x8058215023ba5c3ec3beba48ee80b4ff750427db612f94cd077561870019a37c),
  (49025, 0x8443189b5908a155ad6fe4663ed1b08ffc92a2a77b0792ca7e2551600077f877),
  (49157, 0xcd8d96c5c0a48edac75a5e71a5d19bf179c865327bab5868f225b4c200bf8e54),
  (49227, 0xd6c02cd0a6ccf95527aa608a13085eec32dd83118ecfb5e92a65824a00d4d2a4),
  (49976, 0x88bfb28fddb5bb46c743a373e368fd04c387f9613823a08af84b2e010098f197),
  (50073, 0xf695aa9a63426295a1156242484ceee62ce764228e1fd66c54a0032c00ffc22b),
  (50568, 0x6754a0720f54e7f92b6c1e9a2f9a3117d279e6c4daa75521a2f530340003a9fb),
  (50658, 0xa1f5b8cacbffc0b68a794de412e8a1031590e6d9dd91cc8c95bb10970039a183),
  (50701, 0x6c9ca4f15da6558f9473ecca46de1a0e231be7be92cb6b78c781ae2500af6835),
  (51326, 0xc7467005b41db98eadbad773ef8581413f3ddf4e4ffe87978bdd8a4c0032fe2c),
  (51390, 0x7d016cbd8ea1b9f25d9e50700cbf34722ef11181f1263385c1ad132a0059d18d),
  (51454, 0x3966bfb598390587e9301eac1270efafe26f43b108362008e32bad5900268eac),
  (51981, 0x7d292656991e160b31b366162de2c490013133a034932db203e6b43000b1690d),
  (52274, 0x48c45cf58c96740da021e9405ab359f9e1f26d565d7f86c8d8ec24620083d4ea),
  (52588, 0xaeb592ef28739ac9f3f65d0d1e0c25f074c94e771ea8f352fe9d1cf1008c1897),
  (53257, 0xdd866e6ffde4f344484f6441d3fd82597d311848b424c5dce46c40610033d652),
  (53661, 0x94385382bf9eb6a69ee63f1454fb83bc9c7644d56ebb9a43158dba8100376e41),
  (54536, 0xc127eedf095510b86fcc6a7f257619ffe1b8adb5ce30d9bec8f3cee50021309f),
  (54710, 0x13b5eb2803d620fae8d63243e97a67dc846c282498c513249463ee86003a51e6),
  (54912, 0x99115f524c30a48bba49f8984373a54b1a77740466f31c1157efe41f0088f878),
  (55160, 0x6ea302d6459ac3872e1620d2a0c26be43384967f45f41c20fa420fbe00afeabc),
  (55172, 0x319c6703480d41ec6290c626516fdd0fc6e7419c82e8c072b3264d9100651406),
  (55596, 0xc1ef92d3dabaf500e4cb373f1bc0fedc6906cb54a52b8a2cf7574d64000b5451),
  (55889, 0x7daf6fe3c1e1d1562e6cf2135fbebf39b7cca51cb42c01add535102900593f44),
  (55897, 0x29df3025486253da9251c498f5e1d95676cdd0d1d7048a739cd43a8d005b5f58),
  (56925, 0xc78927b9975a7ec3f36003803c4a2fb2959147059f81207606ad6ac100e8d5ed),
  (57134, 0x5253e1922520e4c78237c3d73a8c43a1a28665c21b28b60376aa4050005ed085),
  (57507, 0x19b1ef11b653da3e3633c5c7b4b52d2d3dbf45bc042e40eb1c0a4acf00e80b4b),
  (57914, 0x0f1a56eb994496e0f94b52c7779dbcac260c9df7cb43d6369fd1f00300598635),
  (58079, 0xab8aafe02419acfa531239bd81e07490e38a64469d6ceae23bd1fc8f0034dfc5),
  (58157, 0x12282264573cfa5e3257709202617a6e88ed56cd765fc8f34454ef4f006c2712),
  (58275, 0xa729c3923b5fa07b8bc0e156eaa254347b608576818187035395bdaa0029c0fe),
  (58711, 0xefd6da0cbc97b02525308d8ec70cd63ad01398150b6cbf99aaa64f6c00dc4d79),
  (58778, 0x77ed24d702b16b06a6fb1aa929d68ec1c478c5e8fb22771115ff4fde001ee240),
  (59131, 0xd0bcc1dc83b696c94769e40306784e1c55700b1456e64593ccff43c70040e200),
  (59279, 0x1ec38e50de4f77fd09e6bc0cdd91e1dde72db54df5d3131e369a43ae00472396),
  (59519, 0xec5ccae2a04959475230d2603c141ebbf59391ced1cac1ef01f4b67000a352c3),
  (60133, 0x7e179d88fc8e95fe7ada06ea1baad87ba824ad1ef69ee8994027de8300776108),
  (60333, 0xf1d4d1aba7c1bee7805c110bface3fd1c09893eb931c06bbd5dfdfa600c45ce4),
  (60359, 0x0f581b9638d2da05e815f5ff003f2912b7fecbcb00e7c0d30982b1270073e0e7),
  (60400, 0x35f4f9659e127c8d61bdd4fe507f61a6bfb535784f1a3df9025b21d300e9d8d9),
  (60455, 0xd518213179a42f999b4e446672b475446288a4703e7fd6a47f2989b40031f60b),
  (60515, 0x97f89fa267dd226910dacc131f854be71c0ad7721339273a4465b7ca00939caa),
  (60546, 0xb856b6fe32219d085b548a781e5ce4132089eb065d966b4c3a2cbc9b0016295e),
  (60824, 0x8db42974be06041542944e330311524fa5a90a2883174acb9281423300f6e9c0),
  (60905, 0xa391ffcc52d2dc51cdde58d198cd4392aca9a2a7820fa17c5d1a5f20001a121b),
  (60916, 0x665031106d81d6cabf31f05c8e6b0fbc4210521775c85c1aa8cb1a26009a97d9),
  (60933, 0x9c75949f99cbefa74cac601832764fe1c6a159df3564f2ecb02cc84600210521),
  (61423, 0x781697a1a9ca88da2cc934f9ececc4127d1df154c7088431254309b200347bd4),
  (61436, 0xb30a49c2d32baa38e4109acf4ea61f4e846f95e63a4750386810474000ee7d15),
  (61514, 0xa96561dd25368d4b0fb7f55493a709d7d34dff961c0ea5f0a21e78bd0006be56),
  (61565, 0xf64f975b53afac5b92e64a8db81c90a467a275cba6909a68fc8856660021d569),
  (61671, 0x82494f7da572e58cc2924d10ce74337e9cc8e9fa7ff1e3390f944a8e00974754),
  (61723, 0xa0e57135378e216ac92ec0be5853385315ba013c0c393a46df76c8e300f531d4),
  (61823, 0x7d2fa7296920a909c814140e3fba3a96bc509d079290c306d06328910008f2f0),
  (61967, 0xa02dd3604dbd8fa3877e2629eb92602033ba5fc8f31b3af0498d88bc0048cbba),
  (62110, 0x7eeaf78a728b3f193c81c7601d0933c66702ce57b5442d323aa6845b009e162f),
  (62197, 0x801cd5f3adb34e2d26dcfdabb261f613947ec466be151d3fee611c9400c790c3),
  (62414, 0x7c7a54506f39340fef77d5112a60a93b404bc108eea254be27c77fb70086a93b),
  (63268, 0x5286370a7ed0adc1949a3ba30a4da0366c23c3b281a6da7c17812d2e00e92bba),
  (63347, 0xb72e0342211613e5ff4cfbd34aeaff16b1e4b507fafd3f5b0691c18b00c354e4),
  (63573, 0x1129aafe232af35a24777a880d3560fee67eaa4dc41bbedaeafaa7fc002d5245),
  (63632, 0x463ffd4d1c50a1782356eb0eb39fe9fc14f86ad5d951437c2bbc6f7200a52272),
  (63844, 0xac6692c559353a470a199afcb4786c6aa8fe022139ed4f8a5751a1f9008a6506),
  (64995, 0x6d9ed43075d7a386ad6869af3f384ab85fbe9763ea65917999cc2fa30022d3dd),
  (65069, 0xb8231cb1f22a1798486012baa232270e97f09ea33d3a96172c1a5a0800edabc5),
  (65113, 0xd10312d3e1d239cbcec6d46bdfedd355c7a238f41a5c7decda91a34f008b133a),
  (65167, 0x72681910630c2fc7d8e24d6e01e6263e5f9d9293f26a98d8eedfc6020079ed20),
  (65350, 0xce5d21d2aba301a1bc530c7833968a87f582b379bb351df3e1a7a8bc00b36cc1),
  (65422, 0xe3eba4c90e91769c03fb7d8483d0f76dee2ca680bdf920f0397fb26e0078407b),
  (65515, 0xd5e2f11b92d008485d1c70ae18265e7e4a55c99427005ed89e7b79e600078616),
  (65680, 0x478d066b631aa9bb64d5b59dde3c141836685a6d0cb3b77692ee6279004477e3),
  (65801, 0x00dd92315786532ae2084b4ead21a4f2804cbf24235c0c00c536271100ecf4b5),
  (66255, 0x3bf55545df65c7441971802b0db314295e251462439a38bca568dd0900cfafbd),
  (66597, 0xfb5270a3542594464b6d1e48b28417c1a7d3bafb217cc462f3d92ff500953902),
  (67928, 0x2265b51dd1b6ef52c6995bedd95f39f936f688264ca0e86a1e72a5e3004039f1),
  (68981, 0xb2cee3b712a4a9d9b446345e13545612a8cb44b5e54a34cc545f108000834704),
  (69173, 0xe2e132a0067138bea0f2222c2e52e7335ea930df3af0695701ea464c00946b33),
  (69239, 0x5c4830b7999d638a399f56267eee78e60fa8b97efdc2ccb9bbb149cb00505895),
  (69343, 0xf152c18ce43155a642cb2a0a88a807dc2f6a4965a72b28fbc79263a8009b098a),
  (69522, 0xb7f1c94f7d75b5d4d1a5d0749028f68a1c49de0af3015510402e34c400e00c96),
  (69713, 0x7ce72b1cf843f0606569e8d32fb92d63f9754c827b51a3ee5388c7ef002b831b),
  (69775, 0x85c5c813f492afdff741f85cad37e5267560f5cd49d2cfa42bf47b1b00c827fc),
  (69842, 0x369e7bf3459c871703bf048c6fcde08e869837aa433ff948a081093800932e4d),
  (70062, 0xb9ccd41ccfe90d848e68555e7a54de4c0810fb18a7b01785fd84ed96006486b6),
  (70356, 0x4a6c22df51921aef7203855e4a69bf86f2304a41d1ab0eee285b0da500899a84),
  (70618, 0xee88f446656f2270d94d42dfd627ef899a5b103425c0b92e65c28c6300283fd7),
  (71183, 0xc86eebf9dc8ec3174958335a65f7c5d81981ea2085522f6c12e7dca90026f692),
  (71623, 0x744f67647c671c891c4196018d8f7013224ab73da2d7c70b8d8765b000a7d33f),
  (71877, 0x2c9229d9bbc91976e561dd3c650cd1b58af69a6dad5ef9127beaea5c0038c31c),
  (72093, 0x8d60ab2f01b31ca34c1ccf38c11c0cb267f7b3b4f0c44c4a3898c0d900a01751),
  (72458, 0xcb9920ea25f1b32de4f6a66637e4281be616e7acd2bdc40bec127f59008a9482),
  (72692, 0x51dc65ba5348c3e98b76818dfe13588ff0652fa7b78ac456f36d944500138ebb),
  (73315, 0x6aee9c2ee65b4e91e171614473a3de5be5e63d90f5dee0376b5dd73400b1cae5),
  (73472, 0x311abbdbd1352e6a522ef34f4b1f591065f4607323ef1f5a582a1bd3000ffd5b),
  (73539, 0xb4d2fd10e5af7019256df9b35c24bb9679ff151d901e96705ac6cde9004bed07),
  (73598, 0x2fba8a007d9550583903f7e112848705043232c8021531b7ceca2cd2003d27a9),
  (74049, 0xea26c036972885a882854b051899f96c03bdb93e0d6ac111eaf2cf6800a5ec0d),
  (74393, 0x11ed727f78705464f8685df2383757a3bf710a758c13866604afd9af00a6ee45),
  (74507, 0x73c069df03b592be19132952a3189bd6bcd6c699d173840a2a9d0c2c0023b494),
  (74903, 0x3d084c059861f99abb4c5c554b91b81a2b083384d96adcb9401bb4eb0053068f),
  (75297, 0x06475320c2db876d83112b257121744fb1579098f2edc8b5d8b0482a00c308e3),
  (75705, 0xd6c2bb30ad3c57adb736cc81a6cc80e7d618e72aa2a4cb6e06430b4a004c7257)]

/-- The stamps of the whole chain, each linked to the digest before it. -/
def fullStamps : List Stamp := stampsFrom 1 firstDigest stampTable

theorem stampTable_length : stampTable.length = 264 := by decide +kernel

theorem fullStamps_length : fullStamps.length = 264 := by
  rw [fullStamps, stampsFrom_length, stampTable_length]

/-- The first block and the blocks of the table. -/
def fullChain : Blockchain := [genesisBlock, firstBlock] ++ fullStamps.map Stamp.block

/-- A full block takes almost four thousand characters. -/
theorem blockSize_full (stamp : Stamp) : 3994 ≤ blockSize stamp.block := by
  have txs : joinedSize (fullTxs.map txSize) = 3774 := by decide +kernel
  have prevHash : stamp.block.prevHash.bytes.length = 64 := hexText32_length _
  have hash : stamp.block.hash.bytes.length = 64 := hexText32_length _
  have index := List.length_pos_of_ne_nil (decimal_ne_nil stamp.block.index.toNat)
  have timestamp := List.length_pos_of_ne_nil (signedDecimal_ne_nil stamp.block.timestamp.toInt)
  have nonce := List.length_pos_of_ne_nil (decimal_ne_nil stamp.block.nonce.toNat)
  have txCount : (signedDecimal stamp.block.txCount.toInt).length = 2 := by
    rw [show stamp.block.txCount.toInt = 10 from rfl]
    decide
  simp only [blockSize, prevHash, hash, txCount, Stamp.block_listed, txs]
  omega

/-- The response carries all blocks. -/
theorem blockSizes_le_responseSize (before blocks : List Block) :
    (blocks.map blockSize).sum ≤ responseSize (before ++ blocks) := by
  have sum (sizes : List Nat) : sizes.sum ≤ joinedSize sizes := by
    have commas (rest : List Nat) : rest.sum ≤ (rest.map (· + 1)).sum := by
      induction rest with
      | nil => exact le_rfl
      | cons size rest ih =>
        simp only [List.map_cons, List.sum_cons]
        omega
    cases sizes with
    | nil => exact le_rfl
    | cons first rest => exact Nat.add_le_add_left (commas rest) first
  have whole := sum ((before ++ blocks).map blockSize)
  rw [List.map_append, List.sum_append] at whole
  rw [responseSize, List.map_append]
  omega

/-- The response with this chain does not fit the buffer. -/
theorem fullChain_long : maxMsgSize + 7 < responseSize fullChain := by
  have blocks (stamps : List Stamp) : 3994 * stamps.length ≤ ((stamps.map Stamp.block).map blockSize).sum := by
    induction stamps with
    | nil => simp
    | cons stamp stamps ih =>
      have here := blockSize_full stamp
      simp only [List.map_cons, List.sum_cons, List.length_cons, Nat.mul_succ]
      omega
  calc maxMsgSize + 7 < 3994 * 264 := by decide
    _ ≤ ((fullStamps.map Stamp.block).map blockSize).sum := fullStamps_length ▸ blocks fullStamps
    _ ≤ responseSize fullChain := blockSizes_le_responseSize [genesisBlock, firstBlock] _

/-! ## Mining on a chain of full blocks -/

/-- A chain that the owner of the first wallet mined, with full blocks above the
first one. -/
structure Funded (chain : Blockchain) (index digest : Nat) : Prop where
  mined : Mined stubSsl chain
  length : chain.length = index + 1
  tip : ∃ last, chain.getLast? = some last ∧ last.index = index.toUInt32 ∧
    last.hash = hexDigest (digestBytes digest)
  balance : (chainGetBalance chain (stubWallet 0).address).toInt = 9 + 41 * index

/-- The first block of the chain is one that `do_mine` builds and `block_mine`
finds. -/
theorem firstChain_mined : Mined stubSsl [genesisBlock, firstBlock] := by
  have found : (blockMine sha256 (fillBlock sha256 [genesisBlock] [] (stubWallet 0).address
      (blockAfter genesisBlock 192))).map Prod.snd = some firstBlock := by decide +kernel
  obtain ⟨⟨attempts, mined⟩, found, rfl⟩ := Option.map_eq_some_iff.mp found
  have added : chainAddBlock sha256 [genesisBlock] firstBlock = some [genesisBlock, firstBlock] := by
    decide +kernel
  exact @Mined.block stubSsl _ _ [] (stubWallet 0) _ _ _ _ (fun _ => []) (.genesis chainInit_sha256)
    (by simp) (by simp) rfl found added

/-- The payment is one that the owner can send on the first block. -/
theorem payment_paid : Paid stubSsl [genesisBlock, firstBlock] payment := by
  let node : Node stubSsl := { freshNode (stubWallet 0) with chain := [genesisBlock, firstBlock] }
  have made : doSendTx node secondOwner 1 1 = some payment := by decide +kernel
  exact ⟨node, secondOwner, 1, 1, rfl, by decide +kernel, made⟩

/-- What `do_mine` builds on such a chain when nine payments wait. -/
theorem fillBlock_full (chain : Blockchain) (last : Block) (stamp : Stamp)
    (covered : 2 ≤ (chainGetBalance chain (stubWallet 0).address).toInt)
    (index : last.index + 1 = stamp.index.toUInt32) (prev : last.hash = hexDigest (digestBytes stamp.prev)) :
    { fillBlock sha256 chain (List.replicate 9 payment) (stubWallet 0).address
        (blockAfter last (Int64.ofNat stamp.time)) with nonce := 0 } =
      { stamp.block with hash := .empty } := by
  have pays : affordable chain payment = true := by
    have cost : (payment.amount + payment.fee).toInt64.toInt = 2 := by decide
    rw [affordable, decide_eq_true_eq, Int64.le_iff_toInt_le, cost]
    exact covered
  have chosen : selectTxs chain (List.replicate 9 payment) = List.replicate 9 payment := by
    rw [selectTxs_eq, List.filter_replicate_of_pos pays]
    rfl
  simp only [fillBlock, chosen, fullReward_eq, blockAfter, index, prev, Stamp.block, fullTxs]
  rfl

/-- The first nonce is the right one. -/
theorem blockMine_found (filled : Block) (stamp : Stamp) (found : stamp.Found)
    (same : { filled with nonce := 0 } = { stamp.block with hash := .empty }) :
    blockMine sha256 filled = some (1, stamp.block) := by
  have hash : blockComputeHash sha256 { stamp.block with hash := .empty } = stamp.block.hash :=
    (blockComputeHash_hash sha256 stamp.block .empty).trans found.1
  obtain ⟨fuel, enough⟩ : ∃ fuel, 2 ^ 64 = fuel + 1 := ⟨2 ^ 64 - 1, by decide⟩
  rw [blockMine, same, enough, blockMineLoop]
  simp only [hash, found.2, if_true, UInt64.zero_add]

/-- One more full block. -/
theorem funded_step {chain : Blockchain} {index digest : Nat} (funded : Funded chain index digest)
    (time next : Nat) (room : index < 9000) (found : Stamp.Found ⟨index + 1, time, digest, next⟩) :
    Funded (chain ++ [Stamp.block ⟨index + 1, time, digest, next⟩]) (index + 1) next := by
  obtain ⟨mined, length, ⟨last, tip, lastIndex, lastHash⟩, balance⟩ := funded
  have follows : last.index + 1 = (index + 1).toUInt32 := by
    rw [lastIndex]
    exact (UInt32.ofNat_add index 1).symm
  have filled := fillBlock_full chain last ⟨index + 1, time, digest, next⟩ (by omega) follows lastHash
  have added : chainAddBlock sha256 chain (Stamp.block ⟨index + 1, time, digest, next⟩) =
      some (chain ++ [Stamp.block ⟨index + 1, time, digest, next⟩]) := by
    refine chainAddBlock_of_extends sha256 chain _ ⟨?_, last, tip, follows.symm, lastHash.symm, ?_⟩
    · rw [length, maxBlocks]
      omega
    · exact (blockValidate_iff sha256 _).mpr ⟨found.1.symm, found.2⟩
  refine ⟨?_, by simp [length], ⟨_, List.getLast?_concat, rfl, rfl⟩, ?_⟩
  · refine @Mined.block stubSsl chain _ (List.replicate 9 payment) (stubWallet 0) last _
      (Int64.ofNat time) 1 (fun _ => [genesisBlock, firstBlock]) mined (fun _ _ => firstChain_mined)
      (fun tx member => ?_) tip (blockMine_found _ _ found filled) added
    rw [List.eq_of_mem_replicate member]
    exact payment_paid
  · have sums : received (stubWallet 0).address fullTxs = 59 ∧ spent (stubWallet 0).address fullTxs = 18 := by
      decide +kernel
    rw [chainGetBalance_append, Stamp.block_listed, toInt_foldl_balanceStep, sums.1, sums.2, balance]
    rw [Int.bmod_eq_of_le (by omega) (by omega)]
    push_cast
    ring

/-- All blocks of a table are mined. -/
theorem funded_run {chain : Blockchain} {index digest : Nat} (funded : Funded chain index digest)
    (table : List (Nat × Nat)) (room : index + table.length ≤ 9000)
    (found : ∀ stamp ∈ stampsFrom index digest table, stamp.Found) :
    Mined stubSsl (chain ++ (stampsFrom index digest table).map Stamp.block) := by
  induction table generalizing chain index digest with
  | nil => simpa [stampsFrom] using funded.mined
  | cons row rest ih =>
    rw [List.length_cons] at room
    have first := funded_step funded row.1 row.2 (by omega) (found _ List.mem_cons_self)
    have later := ih first (by omega) fun stamp member => found stamp (List.mem_cons_of_mem _ member)
    simpa [stampsFrom] using later

/-- The induction over the stamps begins with one block, and with its reward at
the wallet. -/
theorem firstChain_funded : Funded [genesisBlock, firstBlock] 1 firstDigest where
  mined := firstChain_mined
  length := rfl
  tip := ⟨firstBlock, rfl, rfl, by decide +kernel⟩
  balance := by decide +kernel

/-! ## The hashes of full blocks -/

/-- What a block hashes before the transaction hashes, and these. -/
def Stamp.header (stamp : Stamp) : List UInt8 :=
  decimal stamp.index ++ decimal stamp.time ++ hexText (digestBytes stamp.prev).toList ++ [48]

/-- The ten hashes, as they stand in every hashed text of this chain. -/
def hashesText : List UInt8 := fullTxs.flatMap (·.txHash.bytes)

theorem hashesText_length : hashesText.length = 640 := by decide +kernel

/-- The numbers fit their fields, the header has this length, and the digest
meets the target. -/
def Stamp.fits (size : Nat) (stamp : Stamp) : Bool :=
  decide (stamp.index < 2 ^ 32) && decide (stamp.time < 2 ^ 63) && decide (stamp.digest < 2 ^ 256) &&
    decide ((decimal stamp.index).length + (decimal stamp.time).length + 65 = size) &&
    (Nat.shiftRight (wordAt stamp.digest 0) 24 % 256).toUInt8 == 0

/-- The hashed text of a block is its header followed by the ten hashes. -/
theorem Stamp.hashInput (stamp : Stamp) (index : stamp.index < 2 ^ 32) (time : stamp.time < 2 ^ 63) :
    blockHashInput stamp.block = stamp.header ++ hashesText := by
  have indexRead : stamp.block.index.toNat = stamp.index := UInt32.toNat_ofNat_of_lt' index
  have timeRead : stamp.block.timestamp.toInt = stamp.time := Int64.toInt_ofNat_of_lt time
  have timeText : signedDecimal (stamp.time : Int) = decimal stamp.time := rfl
  have prevHash : stamp.block.prevHash.bytes = hexText (digestBytes stamp.prev).toList := by
    simp only [Stamp.block, hexDigest, hexText32]
  have nonce : stamp.block.nonce.toNat = 0 := rfl
  have zero : decimal 0 = [48] := by decide
  rw [blockHashInput_eq, headerText, Stamp.block_listed, indexRead, timeRead, timeText, prevHash, nonce, zero,
    Stamp.header, hashesText]

/-- The codes of the first two blocks of what is hashed, and what follows for
all stamps. -/
def headerCodes (size : Nat) (stamp : Stamp) : List Nat :=
  (decimal stamp.index).map UInt8.toNat ++ (decimal stamp.time).map UInt8.toNat ++ hexCodes stamp.prev ++
    [48] ++ (hashesText.take (128 - size)).map UInt8.toNat

/-- What follows the header's part, padded as SHA-256 pads it. It is the same
for all blocks whose headers have one length, so it is computed once. -/
def hashesRest (size : Nat) : List UInt8 := hashesText.drop (128 - size) ++ padding (size + 640)

/-- Whether these stamps, all with headers of one length, are right. -/
def checkStamps (size : Nat) (group : List Stamp) : Bool :=
  group.all (Stamp.fits size) && Lanes.agree 1024 group (headerCodes size) 10 (hashesRest size) Stamp.digest

/-- Checking a group of stamps from the shared rest finds each of their
blocks. -/
theorem found_of_checkStamps (size : Nat) (small : size ≤ 128) (twelve : (hashesRest size).length = 640)
    (group : List Stamp) (checked : checkStamps size group = true) : ∀ stamp ∈ group, stamp.Found := by
  obtain ⟨fits, agree⟩ := (Bool.and_eq_true _ _).mp checked
  have each (stamp : Stamp) (member : stamp ∈ group) := List.all_eq_true.mp fits stamp member
  simp only [Stamp.fits, Bool.and_eq_true, decide_eq_true_eq, beq_iff_eq] at each
  have length (stamp : Stamp) (member : stamp ∈ group) : stamp.header.length = size := by
    obtain ⟨⟨-, digits⟩, -⟩ := each stamp member
    simp only [Stamp.header, List.length_append, hexText_length, Vector.length_toList, List.length_singleton]
    omega
  have digests := digestBlocks_agree (by decide) group (headerCodes size) 10 (hashesRest size) Stamp.digest
    (fun stamp => stamp.header ++ hashesText.take (128 - size))
    (fun stamp _ => by simp [headerCodes, Stamp.header, hexCodes_eq])
    (fun stamp member => by
      rw [List.length_append, length stamp member, List.length_take, hashesText_length]
      omega)
    (fun stamp member => (each stamp member).1.1.2) agree
  intro stamp member
  obtain ⟨⟨⟨⟨index, time⟩, -⟩, -⟩, target⟩ := each stamp member
  have message : stamp.header ++ hashesText ++ padding (stamp.header ++ hashesText).length =
      stamp.header ++ hashesText.take (128 - size) ++ hashesRest size := by
    rw [List.length_append, length stamp member, hashesText_length, hashesRest]
    conv_lhs => rw [← List.take_append_drop (128 - size) hashesText]
    simp only [List.append_assoc]
  have blocks : (stamp.header ++ hashesText.take (128 - size) ++ hashesRest size).length / 64 = 12 := by
    rw [List.length_append, List.length_append, length stamp member, List.length_take, hashesText_length, twelve]
    omega
  have digest : sha256 (stamp.header ++ hashesText) = digestBytes stamp.digest := by
    simp only [sha256, message, blocks]
    exact congrArg digestBytes (digests stamp member)
  constructor
  · rw [blockComputeHash, stamp.hashInput index time, digest]
    rfl
  · change meetsTarget (hexDigest (digestBytes stamp.digest)) = true
    rw [meetsTarget_hexDigest, digestBytes_first, target]
    rfl

/-- The stamps between two positions. -/
def stampsBetween (first next : Nat) : List Stamp := (fullStamps.take next).drop first

/-- All blocks of the table have the hashes that it says. Small groups keep each
evaluation small. -/
theorem fullStamps_found : ∀ stamp ∈ fullStamps, stamp.Found := by
  have groups : fullStamps = stampsBetween 0 8 ++ (stampsBetween 8 53 ++ (stampsBetween 53 98 ++
      (stampsBetween 98 140 ++ (stampsBetween 140 182 ++ (stampsBetween 182 224 ++
        stampsBetween 224 264))))) := by decide +kernel
  have rest71 : (hashesRest 71).length = 640 := by decide +kernel
  have rest72 : (hashesRest 72).length = 640 := by decide +kernel
  have rest73 : (hashesRest 73).length = 640 := by decide +kernel
  have found71 := found_of_checkStamps 71 (by decide) rest71
  have found72 := found_of_checkStamps 72 (by decide) rest72
  have found73 := found_of_checkStamps 73 (by decide) rest73
  intro stamp member
  rw [groups] at member
  simp only [List.mem_append] at member
  rcases member with member | member | member | member | member | member | member
  · exact found71 (stampsBetween 0 8) (by decide +kernel) stamp member
  · exact found72 (stampsBetween 8 53) (by decide +kernel) stamp member
  · exact found72 (stampsBetween 53 98) (by decide +kernel) stamp member
  · exact found73 (stampsBetween 98 140) (by decide +kernel) stamp member
  · exact found73 (stampsBetween 140 182) (by decide +kernel) stamp member
  · exact found73 (stampsBetween 182 224) (by decide +kernel) stamp member
  · exact found73 (stampsBetween 224 264) (by decide +kernel) stamp member

/-- The whole chain is one that a single honest node can have mined. -/
theorem fullChain_mined : Mined stubSsl fullChain := by
  have found := fullStamps_found
  rw [fullStamps] at found
  rw [fullChain, fullStamps]
  exact funded_run firstChain_funded stampTable (by rw [stampTable_length]; decide) found

/-! ## Synchronising -/

/-- A peer with a shorter chain ends with the chain of the node exactly if the
response fits the buffer, up to the closing marks, which the parsers do not
need. -/
theorem synchronised_iff (send : SendPattern) (accepting : Accepting send) (calls : Nat)
    (node peer : Node ssl) (fd peerFd : Nat) (mined : Mined ssl node.chain)
    (shorter : peer.chain.length < node.chain.length) :
    (peerHandler peer peerFd (chainAnswer send calls node fd)).chain = node.chain ↔
      responseSize node.chain ≤ maxMsgSize + 7 := by
  rw [chainAnswer_eq send accepting calls node fd mined]
  exact mined_arrives mined peer peerFd shorter

/-- The owner of the first wallet with this chain. -/
def minerNode (chain : Blockchain) : Node stubSsl := { freshNode (stubWallet 0) with chain := chain }

/-- A chain of two blocks, answered byte by byte, is taken by a fresh node. -/
theorem synchronised_iff_here :
    (peerHandler (freshNode (stubWallet 1)) 0
      (chainAnswer byteByByte 0 (minerNode [genesisBlock, firstBlock]) 0)).chain =
        [genesisBlock, firstBlock] := by
  have short := (responseSize_bounds firstChain_mined).2
  have size : maxMsgSize = 1048576 := rfl
  refine (synchronised_iff byteByByte byteByByte_accepting 0 (minerNode [genesisBlock, firstBlock])
    (freshNode (stubWallet 1)) 0 0 firstChain_mined (by decide)).mpr ?_
  change responseSize [genesisBlock, firstBlock] ≤ _
  rw [show [genesisBlock, firstBlock].length = 2 from rfl] at short
  omega

/-- A fresh node does not get the chain of 266 blocks, each with ten
transactions. Its line is cut by the reader, and what is left is not the
chain. -/
theorem fullChain_lost : Mined stubSsl fullChain ∧ fullChain.length = 266 ∧
    Accepting byteByByte ∧
    (peerHandler (freshNode (stubWallet 1)) 0 (chainAnswer byteByByte 0 (minerNode fullChain) 0)).chain ≠
      fullChain := by
  have length : fullChain.length = 266 := by
    rw [fullChain, List.length_append, List.length_map, fullStamps_length]
    rfl
  refine ⟨fullChain_mined, length, byteByByte_accepting, fun arrived => ?_⟩
  have mined : Mined stubSsl (minerNode fullChain).chain := fullChain_mined
  rw [chainAnswer_eq byteByByte byteByByte_accepting 0 (minerNode fullChain) 0 mined] at arrived
  have shorter : (freshNode (stubWallet 1) : Node stubSsl).chain.length < fullChain.length := by
    rw [length]
    decide
  exact absurd ((mined_arrives fullChain_mined (freshNode (stubWallet 1)) 0 shorter).mp arrived)
    (Nat.not_le.mpr fullChain_long)

end MiniCoin
