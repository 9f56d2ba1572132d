import Mathlib.Data.Nat.Prime.Basic

/-! # Sizes of the caches and datasets

Both grow with the epoch. The first 2048 epochs are looked up in a table.
-/

namespace KKChain

namespace Ethash

def epochLength : ℕ := 30000

def maxEpoch : ℕ := 2048

/-- A table of the first sizes. Each stands some double units below the last unit under `bound`, which grows with the
epoch, and the table holds how many: the number of steps that the loop of `primeSize` takes. -/
def sizeTable (growth unit : ℕ) : ℕ → List ℕ → List ℕ
  | _, [] => []
  | bound, step :: steps => (bound - unit * (2 * step + 1)) :: sizeTable growth unit (bound + growth) steps

/-- The numbers of steps, 64 in a row with six bits for each. -/
def unpack (rows : List ℕ) : List ℕ := rows.flatMap fun row => (List.range 64).map fun i => row >>> (6 * i) % 64

def datasetSizes : List ℕ :=
  sizeTable (2 ^ 23) 128 (2 ^ 30) <| unpack
    [0x4900870890410800451820830480050c31450072003804040ca14b0023845c30020922c224768128064400d08c0d0007,
     0x2562820cb0844030410cc08e2846d01082412c12851c15002862532130460100890450056d53451040c104300b48c109,
     0x8904e3c32940c45d210204a4810801c524420b0c40830400074868db2481435120073800857870071540c108a70c001,
     0xa2c620201c2c05c004a14f3884010c004b1c51954060c20841433da01058b0d43c014218244039e0451844061c4446,
     0x1444c30c180a14900b0e414518a0001061190d504504e09634010738328004218008048a15b406002387103285001105,
     0x9418214704b61108128324d0010820d00c02822472008851cd24904024220108010d0014c204e083102101301203354,
     0x54800483450011060021800422812031403010c00951023d640800a01010088568020858100134260a00d102285613,
     0x8910c18a2061ce01331228300b0834481810c014234a0001080480c0880c0400c0466440ca0481c724010010408c089,
     0x4cb3040c340804549508628e3842062410890484d00014c25445d280604b149040282003143011241085241180385108,
     0x30118338011020a14b3500c410618724928030760050205620308524b5c00424810001060d33c73823020c108811118c,
     0x4416891874802090cd0831499010812c604525034c0020d04051071471c034414d04919614a2050021521020c4392218,
     0x10b30a08004e4d12431c60c40840432410c658054e18404511319834304199534658500a10b11014004b304603054111,
     0x451841063450c32c024138614604e0c711210a00a1c01c51474d21c42400493cb1414c00cd00408e00200110500a141,
     0x30c0450c254720c00208408518218310204514908218720421a0022413830c12062800420c30801810c4046005209345,
     0x4210108904900700310b00e1831420160001c56042c014e4c548a08f3c408c5c82440c304291600014c0c808411a042,
     0x4012000461810862c630838920b30209504c0472411460442c00421073c034b04d0040451042cd08301000a14e1855c7,
     0x14f2863081440820540060400cd0041456441896401023cc2055445de0490c53243430041812035851b12911c120f382,
     0x2c56020001050410034c60016001ce18418104324e0c31c240768a08e05a08008300200610004419020028b0c9049047,
     0xc20800400040c108604b19828210800770630239020c10720604310d0c734b4c52041110010cc0890072c94c529108d,
     0x1432c30ce24420328218308510d14040c00d14008600414104b7840c304f0425001021ca0de14934b3c904f0c424320c,
     0x1c00041521061c50c914024700734b5411441083ca1460430510070600012c404e00e5071c0101184083054204112008,
     0x10838640500e0040461020cf0402440c738234b20308e90b3041000142cc28c1052c108c00e1871020c50934d100b086,
     0x3c01dd4871400433451410460010c014828100709b04a19e383d810953450d3003c861d0083285044243142244018142,
     0x1404908434060cb0060430420831084d04831cc1020cc102101083106a070060801c500428c00120405704274114f185,
     0x3010c11c50cd3048cc00a0011c300e00d50000508d1c306e5401ce89718739102024a0632823d50453010c64421ce000,
     0x1892c02821800891013c02c93474411c030a01205258720904000d3861544cb00709801f2441d40070930420d02c014c,
     0x10310b2011c230424f10218400a2c92820000830420861450c208428028e00c38c84808304655908938318800321e581,
     0xcd3862c301608014c24720610b04100340624b0061c88423132941070810430043801002413031c2001146045308247,
     0x2090434043033863d020920300718608018d0c90432480041c928760405211f6036512810001c00c51407d534b081108,
     0x482410041032932412c800708d4403c218610510168d08904d2091001c415370600154604804100136d044300046108,
     0xc10dc2d10c13c694004d3cc20f3071830512410062001850002c60c10d6a523440810451c12090826041471001050d3,
     0x18109e1ce3cc4c200100009200a1860540c418f1c518200028212e1804210480814081c85065c22420801c59c2780200]

def cacheSizes : List ℕ :=
  sizeTable (2 ^ 17) 64 (2 ^ 24) <| unpack
    [0x810051c51440010035802c43400432050052c40070430830013420410010c50830842401c60041831cc184003080182,
     0x140c23410814023800010081c00823c028d79010c2030c20c91417811801000c40c90830941091c30c13022000c4043,
     0x34032c53c21042571c040719010604154dac01440081060400c700210114a2400550873d504144401504620d040380,
     0x8300110008054104b1030820452800010002832472401440050031c318218b1010011882c70013c00800c2102281081,
     0x850050810840420441820c93922471031011420081012050401c600500c34d5010064c60140c90440c21031cf182000,
     0x810c80002c30844000932471831c10910c014114411d3861850020812481821c00c14860800074020400080c5280,
     0x38f2c20c01001871000410c11001c30c204c1c00082423400c13c01060851140460040030871824821010010ce044181,
     0x2cb31105618d0cf08c18705408600100310014404e0830070402065412451400840020872081022c90c11861000021c3,
     0x220418b05228100d3061432040c504608425e0870c504928a0050c21000021c6c47384040143217102103184403380,
     0x4405c71830831811051070c41060830821821c40052400830190c634a2c130074418834008119328b1430047c02c000a,
     0xc12830805c100b0843020c32090070c30560873455c60171053840c10c314d0050452001412430412440421410c14c5,
     0x1802040c80031092c40c21c00053031000810c804109618f0430ae00f04900e1c208318110510014110608309904b150,
     0x2c05c800c0930c11c010320504814118110334020b1c92c018204b08114d1920443ca00210100704c500147245146382,
     0x8724308f1820091c10011824000111921c32d10c504c0c20030814854090430850024040c4186103008042144207300,
     0x18e10c20228904c38500b04630a0421cd2c418c14108a6c31400c21c008008d0490442081c20560c4186209147700044,
     0x2042c11c321508830e0830c510028100418320300504308118204811500400004108440c34420a4c01c9142549341241,
     0x128910624210870149730f0811840052c302324b3840c204608a0011852810c12430430c70022070c429410001000e,
     0xc1090020c81c10871020401813451071840c00492051c304700b0c30800850511440810c914060204b1430ca1002cf,
     0x1413811001136820082002411851411903061680c80c208108a0110870019420800011970490c10c504c247005281004,
     0x842820410ee28c0834841c21c02ca3544070110ce0400c204228424118b1002421cc2830870cf3870813451412c2106,
     0x1c84410d40490830881021000c504b50100204f4d60c40c058120824014c3dd00544a0c42860842c134c2c1187285083,
     0x10f0020001ca08e18f1c10881003800c434209000130010c0c10030400c201a04608404068301300b1c42471c01490c1,
     0x2cb04810a1842430432480090442451830837820031063991c340020400004f18200028300d04810720500b080001043,
     0x1520308560505308110b14a1870401430081c50800070c214d1410511044470141401823c61c30881003400c13c3140,
     0x1c33ca5890800010400402c228310c24218544408d1c204402000814a4421021002cb1061010c510b34300a002049387,
     0x44d575218e30214a2d00cc0403c124504a0c500008320e4c020022900934030534c1061470003814880c208c081005,
     0xe04350a0063403840c91441450420410880c304331100250421710f0400c154608914d10228400b6c61c00ce045081,
     0x6472c20062c700d1c004300418208190a1031464840002c025110004c20100520900100b3411470c210c00b0c0040087,
     0xc234304130d04b2840c524004414700810425605428008b00310d0c22450830811021c71810db083381043040007003,
     0x3093444821c30430820c028420130534a49105710a3101002c000110014608d00204d0841cf0401450551062413434c7,
     0x8a2d01830410c20052c00c50cb14d01a1c50440c104328108204028108110e38021700508100518208a1440c310a081,
     0x20480800870c31000820c31412c728014308810004c2c104650330724004c08d28304008a24c08321f10610a0c4008]

/-- The loop of `calcDatasetSize` and `calcCacheSize`: from `size` down in steps of two units until the number of units
is a prime. -/
def primeSize (unit : ℕ) : ℕ → ℕ → Option ℕ
  | 0, _ => none
  | fuel + 1, size =>
    if (size / unit).Prime then some size else primeSize unit fuel ((size + (2 ^ 64 - 2 * unit)) % 2 ^ 64)

/-- `calcDatasetSize`. There are not more sizes than the loop may take steps. -/
def calcDatasetSize (epoch : ℕ) : Option ℕ :=
  primeSize 128 (2 ^ 57) ((2 ^ 30 + 2 ^ 23 * epoch + (2 ^ 64 - 128)) % 2 ^ 64)

def calcCacheSize (epoch : ℕ) : Option ℕ :=
  primeSize 64 (2 ^ 58) ((2 ^ 24 + 2 ^ 17 * epoch + (2 ^ 64 - 64)) % 2 ^ 64)

def datasetSize (block : ℕ) : Option ℕ :=
  let epoch := block / epochLength
  if epoch < maxEpoch then datasetSizes[epoch]? else calcDatasetSize epoch

def cacheSize (block : ℕ) : Option ℕ :=
  let epoch := block / epochLength
  if epoch < maxEpoch then cacheSizes[epoch]? else calcCacheSize epoch

end Ethash

end KKChain
